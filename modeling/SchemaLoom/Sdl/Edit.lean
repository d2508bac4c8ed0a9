/-
Edits of schema documents.

An `Edit` addresses the first object, interface or input type of a name, and perhaps the first
field of a name in it.  Every other definition and field keeps its place.  New fields are given
as text, so that an edit can be kept and replayed without the document it came from.

The text of a field is read inside a type of its own (`wrappedFields`), which has to come out
with one field (`onlyField`).  Output fields and input fields are edited alike, by what the class
`Member` asks of both.
-/
import SchemaLoom.Sdl.Document.Parser
import SchemaLoom.Text.Layout

namespace SchemaLoom.Sdl

/-- An edit of one type of a document. -/
inductive Edit where
  /-- Adds a field at the end. -/
  | addField (type : String) (field : String)
  | removeField (type name : String)
  /-- Puts another field in the place of one. -/
  | replaceField (type name : String) (field : String)
  /-- Attaches directives without arguments to a type or to one of its fields. -/
  | addDirectives (type : String) (name : Option String) (directives : List String)
  /-- Strips a directive from a type or from one of its fields. -/
  | removeDirective (type : String) (name : Option String) (directive : String)
  deriving DecidableEq, Repr

/-- The type that an edit addresses. -/
def Edit.type : Edit → String
  | addField type _ | removeField type _ | replaceField type _ _ | addDirectives type _ _
  | removeDirective type _ _ => type

/-- Why a document cannot be edited. -/
inductive EditFault where
  | typeMissing (type : String)
  | fieldMissing (type field : String)
  /-- The text is no field. -/
  | badField (text : String) (fault : SyntaxFault)
  /-- The text holds several fields. -/
  | severalFields (text : String)
  deriving DecidableEq, Repr

/-- The wording of a fault. -/
def EditFault.message : EditFault → String
  | typeMissing type => "Type '" ++ type ++ "' not found in document"
  | fieldMissing type field => "Field '" ++ field ++ "' not found on type '" ++ type ++ "'"
  | badField text fault => "Invalid field definition '" ++ text ++ "': " ++ fault.message
  | severalFields text => "Expected exactly one field definition in '" ++ text ++ "'"

/-! ### Appending -/

/-- Definitions with one put in the place of the first of the same kind and name, or at the end. -/
def putDefinition (d : Definition) : List Definition → List Definition
  | [] => [d]
  | e :: es => if e.key = d.key then d :: es else e :: putDefinition d es

/-- A document with definitions appended, each replacing the one of its kind and name. -/
def Document.append (doc : Document) (definitions : List Definition) : Document :=
  ⟨definitions.foldl (fun acc d => putDefinition d acc) doc.definitions⟩

/-! ### Single fields -/

/-- The fields of the type that a text becomes behind a keyword and between braces. -/
def wrappedFields {α : Type} (keyword : String) (fieldsOf : Definition → List α) (text : String) :
    Except EditFault (List α) :=
  match Document.parseStrict (keyword ++ " Wrapper \x7b " ++ text ++ " \x7d") with
  | .error fault => .error (.badField text fault)
  | .ok doc => .ok (doc.definitions.head?.elim [] fieldsOf)

/-- The only item of a list. -/
def onlyField {α : Type} (text : String) : List α → Except EditFault α
  | [field] => .ok field
  | _ => .error (.severalFields text)

/-- The fields of an object type. -/
def Definition.outputFields : Definition → List Field
  | .object body => body.fields
  | _ => []

/-- The fields of an input type. -/
def Definition.inputFields : Definition → List InputField
  | .input body => body.fields
  | _ => []

/-- The field of an object type that a text consists of. -/
def Field.parse (text : String) : Except EditFault Field := do
  onlyField text (← wrappedFields "type" Definition.outputFields text)

/-- The field of an input type that a text consists of. -/
def InputField.parse (text : String) : Except EditFault InputField := do
  onlyField text (← wrappedFields "input" Definition.inputFields text)

/-! ### Directives -/

/-- Directives with some added at the end, without arguments; others of their names are dropped. -/
def addDirectives (names : List String) (ds : List Directive) : List Directive :=
  let names := Text.distinct names
  ds.filter (fun d => !names.contains d.name) ++ names.map fun n => ⟨n, []⟩

/-- Directives without those of a name. -/
def dropDirective (name : String) (ds : List Directive) : List Directive :=
  ds.filter fun d => d.name ≠ name

/-! ### Types -/

/-- What edits need to know about the fields of a type. -/
class Member (α : Type) where
  name : α → String
  parse : String → Except EditFault α
  mapDirectives : (List Directive → List Directive) → α → α

instance : Member Field where
  name f := f.name
  parse := Field.parse
  mapDirectives change f := { f with directives := change f.directives }

instance : Member InputField where
  name f := f.name
  parse := InputField.parse
  mapDirectives change f := { f with directives := change f.directives }

variable {α : Type} [Member α]

/-- Fields with the first of a name changed, or dropped. -/
def changeField (type name : String) (change : α → Except EditFault (List α)) :
    List α → Except EditFault (List α)
  | [] => .error (.fieldMissing type name)
  | f :: fs => do
    if Member.name f = name then return (← change f) ++ fs
    else return f :: (← changeField type name change fs)

/-- The directives and fields of a type after an edit. -/
def editMembers (edit : Edit) (ds : List Directive) (fields : List α) :
    Except EditFault (List Directive × List α) :=
  match edit with
  | .addField _ text => do return (ds, fields ++ [← Member.parse text])
  | .removeField type name => do
    return (ds, ← changeField type name (fun _ => .ok []) fields)
  | .replaceField type name text => do
    return (ds, ← changeField type name (fun _ => do return [← Member.parse text]) fields)
  | .addDirectives _ none names => .ok (addDirectives names ds, fields)
  | .addDirectives type (some name) names => do
    let change := fun f => .ok [Member.mapDirectives (addDirectives names) f]
    return (ds, ← changeField type name change fields)
  | .removeDirective _ none directive => .ok (dropDirective directive ds, fields)
  | .removeDirective type (some name) directive => do
    let change := fun f => .ok [Member.mapDirectives (dropDirective directive) f]
    return (ds, ← changeField type name change fields)

/-- A definition after an edit; only types with fields can be edited. -/
def Definition.edit? (edit : Edit) : Definition → Option (Except EditFault Definition)
  | .object body => some do
    let (directives, fields) ← editMembers edit body.directives body.fields
    return .object { body with directives, fields }
  | .interface body => some do
    let (directives, fields) ← editMembers edit body.directives body.fields
    return .interface { body with directives, fields }
  | .input body => some do
    let (directives, fields) ← editMembers edit body.directives body.fields
    return .input { body with directives, fields }
  | _ => none

/-- Definitions with the first type that an edit addresses edited. -/
def editDefinitions (edit : Edit) : List Definition → Except EditFault (List Definition)
  | [] => .error (.typeMissing edit.type)
  | d :: ds =>
    match if d.name? = some edit.type then d.edit? edit else none with
    | some edited => return (← edited) :: ds
    | none => return d :: (← editDefinitions edit ds)

/-- A document after an edit. -/
def Document.edit (doc : Document) (edit : Edit) : Except EditFault Document :=
  (editDefinitions edit doc.definitions).map Document.mk

end SchemaLoom.Sdl
