/-
Directives: their arguments and their sites.

Written values denote trees (`Value.toTree`).  A text, a block and the name of an enum value all
denote a text, and an integer of more digits than are read denotes no number.  Of several
arguments or entries of one name the last one counts, in the place of the first.

Directives act on object and input types and on their fields.  The sites of a document are its
types in order, each followed by its fields (`Document.sites`).

A run may be restricted to types of given names.  A site is in scope if its type has one of the
names, or if it is an input type that is bound to a type of one of the names (`Site.inScope`).
-/
import SchemaLoom.Sdl.Document
import SchemaLoom.Tree

namespace SchemaLoom.Sdl

/-! ### Arguments -/

/-- The number that digits with a sign denote. -/
def numberOf (digits : String) : Scalar :=
  let (negative, cs) := splitSign digits.toList
  if digitLimit < cs.length then .float .nan else .int
    (Binary64.signed negative (decimalNatural cs))

/-- The fraction that a decimal denotes. -/
def fractionOf (digits : String) : Binary64 := (readDecimal? digits.toList).getD .nan

mutual

/-- The tree that a value denotes; a variable denotes nothing. -/
def Value.toTree : Value → Tree
  | .variable _ | .null => .null
  | .int digits => .leaf (numberOf digits)
  | .float digits => .float (fractionOf digits)
  | .string text _ => .text text
  | .boolean truth => .bool truth
  | .enum name => .text name
  | .list items => .list (treesOf items)
  | .object fields => .map (entriesOf [] fields)

/-- The trees that the items of a list denote. -/
def treesOf : List Value → List Tree
  | [] => []
  | v :: vs => v.toTree :: treesOf vs

/-- The entries read so far, followed by those that named values denote. -/
def entriesOf (read : List (Scalar × Tree)) : List (String × Value) → List (Scalar × Tree)
  | [] => read
  | (name, v) :: rest => entriesOf (Tree.insert (.text name) v.toTree read) rest

end

/-- The arguments of a directive. -/
def Directive.entries (d : Directive) : List (Scalar × Tree) := entriesOf [] d.arguments

/-- The value of an argument. -/
def Directive.argument? (d : Directive) (name : String) : Option Tree :=
  Tree.lookup (.text name) d.entries

/-! ### Sites -/

/-- A type that directives act on. -/
inductive Declaration where
  | object (body : ObjectType)
  | input (body : InputType)
  deriving Repr

/-- A field of such a type. -/
inductive DeclaredField where
  | output (field : Field)
  | input (field : InputField)
  deriving Repr

namespace DeclaredField

/-- The name of a field. -/
def name : DeclaredField → String
  | output f => f.name
  | input f => f.name

/-- The type of a field. -/
def type : DeclaredField → TypeRef
  | output f => f.type
  | input f => f.type

/-- The directives of a field. -/
def directives : DeclaredField → List Directive
  | output f => f.directives
  | input f => f.directives

end DeclaredField

namespace Declaration

/-- The name of a type. -/
def name : Declaration → String
  | object body => body.name
  | input body => body.name

/-- The directives of a type. -/
def directives : Declaration → List Directive
  | object body => body.directives
  | input body => body.directives

/-- The fields of a type. -/
def fields : Declaration → List DeclaredField
  | object body => body.fields.map .output
  | input body => body.fields.map .input

/-- The type that a definition declares, if directives act on it. -/
def ofDefinition? : Definition → Option Declaration
  | .object body => some (object body)
  | .input body => some (input body)
  | _ => none

/-- The name of the directive that binds an input type to a table. -/
def bindingDirective : String := "modelInput"

/-- The first `name` argument among directives that bind an input type. -/
def boundName? (ds : List Directive) : Option Value :=
  ((ds.filter fun d => d.name = bindingDirective).flatMap (·.arguments)).lookup "name"

/-- The type that an input type is bound to. -/
def boundTo? : Declaration → Option String
  | object _ => none
  | input body => (boundName? body.directives).bind fun v => v.toTree.text?

end Declaration

/-- A site of directives. -/
inductive Site where
  | type (declaration : Declaration)
  | field (declaration : Declaration) (field : DeclaredField)
  deriving Repr

/-- The names of the types that directives may act on; without names, all of them. -/
abbrev Scope := Option (List String)

namespace Site

/-- The type at or around a site. -/
def declaration : Site → Declaration
  | type d | field d _ => d

/-- The name of the type at or around a site. -/
def typeName (s : Site) : String := s.declaration.name

/-- The name of the field at a site. -/
def fieldName? : Site → Option String
  | type _ => none
  | field _ f => some f.name

/-- The directives at a site. -/
def directives : Site → List Directive
  | type d => d.directives
  | field _ f => f.directives

/-- The name of a site. -/
def label : Site → String
  | type d => d.name
  | field d f => d.name ++ "." ++ f.name

/-- Directives at the site `s` may act. -/
def inScope (scope : Scope) (s : Site) : Bool :=
  scope.all fun names =>
    names.contains s.typeName || s.declaration.boundTo?.any (names.contains ·)

end Site

/-- The sites of a type. -/
def Declaration.sites (d : Declaration) : List Site := .type d :: d.fields.map (.field d)

/-- The sites of a document. -/
def Document.sites (doc : Document) : List Site :=
  (doc.definitions.filterMap Declaration.ofDefinition?).flatMap (·.sites)

/-- The fields of a type are in scope together with the type. -/
theorem Site.inScope_field (scope : Scope) (d : Declaration) (f : DeclaredField) :
    (Site.field d f).inScope scope = (Site.type d).inScope scope := rfl

end SchemaLoom.Sdl
