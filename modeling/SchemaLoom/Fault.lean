/-
Faults of a compilation.

Every way in which a schema can fail to compile, or a fragment can fail to fit the file it is
addressed to, is a case of `Fault`.  A fault holds what its wording names, and `Fault.message` is
the wording.
-/
import SchemaLoom.Access.Rule
import SchemaLoom.Sdl.Document.Printer
import SchemaLoom.Sdl.Edit
import SchemaLoom.Tree.Patch
import SchemaLoom.Yaml.Printer

namespace SchemaLoom

/-- Why a compilation fails. -/
inductive Fault where
  /-- The text that `label` names is no schema document. -/
  | malformed (label source : String) (fault : Sdl.SyntaxFault)
  /-- A type is nested too deeply to be the type of a stored field. -/
  | unsupportedType (type : Sdl.TypeRef)
  | badRule (place : String) (fault : Access.RuleFault)
  /-- The arguments of a directive do not have the form that it asks for. -/
  | badArguments (directive place : String) (fault : FormFault)
  | functionUnnamed (place : String)
  | repeatedTable (type : String)
  /-- Two keys of a type have one name, or none. -/
  | repeatedKey (type : String) (name : Option String)
  /-- A relation needs an index but has no name to give it. -/
  | unnamedIndex
  | badEdit (fault : Sdl.EditFault)
  | badPatch (fault : TreeFault)
  /-- A file that is to be edited is no structured text. -/
  | existingMalformed (location : String)
  /-- A file that is to be edited holds a scalar without a value. -/
  | existingScalar (fault : Yaml.Fault)
  /-- An edit of a tree is addressed to a schema document, or the reverse. -/
  | misplacedEdit (location edit destination : String)
  /-- The content of a fragment for a schema document is no schema text. -/
  | unsupportedContent (location kind : String)
  /-- A schema document cannot be written as structured text. -/
  | unprintable
  /-- A tree cannot be written as structured text. -/
  | unwritable (obstacle : Yaml.Obstacle)
  /-- Generated documents keep giving rise to others. -/
  | unsettled (rounds : Nat)

/-- The wording of a fault. -/
def Fault.message : Fault → String
  | malformed label _ fault => "Syntax error in " ++ label ++ ": " ++ fault.message
  | unsupportedType type => "Unsupported type wrapping '" ++ type.render ++ "'"
  | badRule place fault => "@auth on " ++ place ++ ": " ++ fault.message
  | badArguments directive place fault =>
    "@" ++ directive ++ " on " ++ place ++ ": " ++ fault.message
  | functionUnnamed place => "@function on " ++ place ++ " requires a 'name' argument"
  | repeatedTable type => "Type '" ++ type ++ "' is declared as @model more than once"
  | repeatedKey type none => "Type '" ++ type ++ "' declares a primary key more than once"
  | repeatedKey type (some name) =>
    "Type '" ++ type ++ "' declares a key named '" ++ name ++ "' more than once"
  | unnamedIndex => FormFault.message ⟨["name"], .notText⟩
  | badEdit fault => fault.message
  | badPatch fault => fault.message
  | existingMalformed location => "Existing file " ++ location ++ " is not valid YAML: <yaml>"
  | existingScalar _ => "Existing file has a scalar without a value"
  | misplacedEdit location edit destination =>
    location ++ ": '" ++ edit ++ "' cannot be applied to " ++ destination ++ " destination"
  | unsupportedContent location kind =>
    location ++ ": unsupported SDL payload of type " ++ kind
  | unprintable => "A schema document cannot be written as structured text"
  | unwritable .longNumber => "An integer has too many digits to be written"
  | unwritable .deepNesting => "Collections are nested too deeply to be written"
  | unsettled rounds => "Generated schema did not settle after " ++ toString rounds ++ " rounds"

/-- The document that a text named `label` holds. -/
def parseSchema (label text : String) : Except Fault Sdl.Document :=
  (Sdl.Document.parse text).mapError (.malformed label text)

end SchemaLoom
