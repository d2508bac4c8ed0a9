/-
Printing schema documents.

Definitions are separated by a blank line, members stand on lines of their own two columns to the
right of their type, and everything that can be left out is.  Indentation is added after every
line break, also inside block text: reading drops it again.

Every kind of node has a function `render` of its own.  Arguments have two layouts, one on a line
and one with a line for each.
-/
import SchemaLoom.Sdl.BlockText
import SchemaLoom.Sdl.Document
import SchemaLoom.Text.Escape
import SchemaLoom.Text.Layout

namespace SchemaLoom.Sdl

open Text

/-- A quoted text, as a block or on one line. -/
def renderString (text : String) (block : Bool) : String :=
  if block then BlockText.render text else controlQuoted text

mutual

/-- A value. -/
def Value.render : Value → String
  | .variable name => "$" ++ name
  | .int digits | .float digits => digits
  | .string text block => renderString text block
  | .boolean truth => if truth then "true" else "false"
  | .null => "null"
  | .enum name => name
  | .list items => "[" ++ ", ".intercalate (renderItems items) ++ "]"
  | .object fields => "\x7b" ++ ", ".intercalate (renderEntries fields) ++ "\x7d"

/-- The items of a list. -/
def renderItems : List Value → List String
  | [] => []
  | v :: vs => v.render :: renderItems vs

/-- The entries of an object, and the arguments of a directive or field. -/
def renderEntries : List (String × Value) → List String
  | [] => []
  | (key, v) :: rest => (key ++ ": " ++ v.render) :: renderEntries rest

end

/-- A directive. -/
def Directive.render (d : Directive) : String :=
  "@" ++ d.name ++ enclose "(" (", ".intercalate (renderEntries d.arguments)) ")"

/-- Directives with spaces between them. -/
def renderDirectives (ds : List Directive) : String := joinPresent " " (ds.map (·.render))

/-- A type reference. -/
def TypeRef.render : TypeRef → String
  | .named name => name
  | .list item => "[" ++ item.render ++ "]"
  | .nonNull inner => inner.render ++ "!"

/-- A description on lines of its own. -/
def renderDescription : Option Description → String
  | some d => renderString d.text d.block ++ "\n"
  | none => ""

/-- A default value behind an equals sign. -/
def renderDefault : Option Value → String
  | some v => "= " ++ v.render
  | none => ""

/-- An input field or argument. -/
def InputField.render (f : InputField) : String :=
  renderDescription f.description ++
    joinPresent " "
      [f.name ++ ": " ++ f.type.render, renderDefault f.default, renderDirectives f.directives]

/-- Arguments in parentheses, each on a line of its own if one of them spans lines. -/
def renderArguments (args : List InputField) : String :=
  let items := args.map (·.render)
  if items.any hasBreak then enclosedLines "(" ")" items else enclose "("
    (joinPresent ", " items) ")"

/-- A field of an object or interface type. -/
def Field.render (f : Field) : String :=
  renderDescription f.description ++ f.name ++ renderArguments f.arguments ++ ": " ++ f.type.render
    ++ enclose " " (renderDirectives f.directives) ""

/-- One value of an enum type. -/
def EnumValue.render (v : EnumValue) : String :=
  renderDescription v.description ++ joinPresent " " [v.name, renderDirectives v.directives]

/-- An object or interface type behind its keyword. -/
def ObjectType.render (keyword : String) (t : ObjectType) : String :=
  renderDescription t.description ++
    joinPresent " "
      [keyword, t.name, enclose "implements " (joinPresent " & " t.interfaces) "",
        renderDirectives t.directives, braced (t.fields.map (·.render))]

/-- An input type behind its keyword. -/
def InputType.render (keyword : String) (t : InputType) : String :=
  renderDescription t.description ++
    joinPresent " "
      [keyword, t.name, renderDirectives t.directives, braced (t.fields.map (·.render))]

/-- A scalar type behind its keyword. -/
def ScalarType.render (keyword : String) (t : ScalarType) : String :=
  renderDescription t.description ++ joinPresent " " [keyword, t.name,
    renderDirectives t.directives]

/-- A union type behind its keyword. -/
def UnionType.render (keyword : String) (t : UnionType) : String :=
  renderDescription t.description ++
    joinPresent " "
      [keyword, t.name, renderDirectives t.directives,
        enclose "= " (joinPresent " | " t.members) ""]

/-- An enum type behind its keyword. -/
def EnumType.render (keyword : String) (t : EnumType) : String :=
  renderDescription t.description ++
    joinPresent " "
      [keyword, t.name, renderDirectives t.directives, braced (t.values.map (·.render))]

/-- A root operation type. -/
def renderRoot (root : OperationKind × String) : String := root.1.keyword ++ ": " ++ root.2

/-- A schema block behind its keyword. -/
def SchemaBody.render (keyword : String) (s : SchemaBody) : String :=
  renderDescription s.description ++
    joinPresent " " [keyword, renderDirectives s.directives, braced (s.roots.map renderRoot)]

/-- The declaration of a directive. -/
def DirectiveType.render (d : DirectiveType) : String :=
  renderDescription d.description ++ "directive @" ++ d.name ++ renderArguments d.arguments
    ++ (if d.repeatable then " repeatable" else "") ++ " on " ++ joinPresent " | " d.locations

/-! ### Executable definitions -/

/-- The widest line on which a selected field keeps its arguments. -/
def argumentLineWidth : Nat := 80

/-- A name with its arguments, each on a line of its own if they are too wide together. -/
def renderCall (lead : String) (args : List (String × Value)) : String :=
  let items := renderEntries args
  let line := lead ++ enclose "(" (joinPresent ", " items) ")"
  if argumentLineWidth < line.length then lead ++ enclosedLines "(" ")" items else line

mutual

/-- A selection. -/
def Selection.render : Selection → String
  | .field «alias» name args ds selections =>
    let lead := (match «alias» with | some a => a ++ ": " | none => "") ++ name
    joinPresent " " [renderCall lead args, renderDirectives ds,
      braced (renderSelections selections)]
  | .spread name ds => "..." ++ name ++ enclose " " (renderDirectives ds) ""
  | .inline condition ds selections =>
    joinPresent " "
      ["...", match condition with | some t => "on " ++ t | none => "", renderDirectives ds,
        braced (renderSelections selections)]

/-- The selections of a set. -/
def renderSelections : List Selection → List String
  | [] => []
  | s :: ss => s.render :: renderSelections ss

end

/-- A variable with its type. -/
def VariableDefinition.render (v : VariableDefinition) : String :=
  renderDescription v.description ++ "$" ++ v.name ++ ": " ++ v.type.render
    ++ enclose " " (renderDefault v.default) "" ++ enclose " " (renderDirectives v.directives) ""

/-- The variables of an operation. -/
def renderVariables (parameters : List VariableDefinition) : String :=
  let items := parameters.map (·.render)
  if items.any hasBreak then enclose "(\n" (joinPresent "\n" items) "\n)"
  else enclose "(" (joinPresent ", " items) ")"

/-- An operation; a query without anything else is its selection set. -/
def Operation.render (o : Operation) : String :=
  let lead :=
    renderDescription o.description ++
      joinPresent " "
        [o.kind.keyword, o.name.getD "" ++ renderVariables o.parameters,
          renderDirectives o.directives]
  (if lead = "query" then "" else lead ++ " ") ++ braced (renderSelections o.selections)

/-- A fragment. -/
def FragmentType.render (f : FragmentType) : String :=
  renderDescription f.description ++ "fragment " ++ f.name ++ " on " ++ f.condition ++ " "
    ++ enclose "" (renderDirectives f.directives) " " ++ braced (renderSelections f.selections)

/-- A definition. -/
def Definition.render : Definition → String
  | .operation body => body.render
  | .fragment body => body.render
  | .schema body => body.render "schema"
  | .scalar body => body.render "scalar"
  | .object body => body.render "type"
  | .interface body => body.render "interface"
  | .union body => body.render "union"
  | .enum body => body.render "enum"
  | .input body => body.render "input"
  | .directive body => body.render
  | .schemaExtension body => body.render "extend schema"
  | .scalarExtension body => body.render "extend scalar"
  | .objectExtension body => body.render "extend type"
  | .interfaceExtension body => body.render "extend interface"
  | .unionExtension body => body.render "extend union"
  | .enumExtension body => body.render "extend enum"
  | .inputExtension body => body.render "extend input"

/-- A document, ended by a line break unless it is empty. -/
def Document.render (d : Document) : String :=
  enclose "" (joinPresent "\n\n" (d.definitions.map (·.render))) "\n"

end SchemaLoom.Sdl
