/-
Fragments of artifacts, and their locations.

The compiler emits fragments, each addressed to a location.  A `Fragment` either provides content
or edits what the fragments before it have built up (`Payload`, `Patch`).

A location is a path of components separated by slashes, relative to the build directory.  Empty
components and single dots do not count.  What is done with the fragments of a location depends
on the suffix of its last component, which says what `medium` it is.
-/
import SchemaLoom.Form
import SchemaLoom.Sdl.Edit
import SchemaLoom.Text.Layout
import SchemaLoom.Tree.Patch

namespace SchemaLoom.Artifact

/-! ### Locations -/

/-- The ways in which the fragments of a location are put together. -/
inductive Medium where
  /-- Texts one after the other. -/
  | text
  /-- A tree that is edited. -/
  | structured
  /-- A schema document that is edited. -/
  | sdl
  deriving DecidableEq, Repr

/-- The word for a medium. -/
def Medium.word : Medium → String
  | text => "text"
  | structured => "structured"
  | sdl => "sdl"

/-- The components of a path. -/
def components (path : String) : List String :=
  (Text.splitAtChar '/' path).filter fun c => c ≠ "" ∧ c ≠ "."

/-- The last component of a path, empty if there is none. -/
def fileName (path : String) : String := (components path).getLastD ""

/-- The suffix of a file name: the last point and what follows it, unless the point leads or ends
the name. -/
def suffix (path : String) : String :=
  let name := (fileName path).toList
  let ending := (name.reverse.takeWhile (· ≠ '.')).reverse
  if ending.isEmpty ∨ name.length ≤ ending.length + 1 then ""
  else String.ofList ('.' :: ending)

/-- How the fragments of a location are put together. -/
def medium (location : String) : Medium :=
  let s := suffix location
  if s = ".yml" ∨ s = ".yaml" then .structured
  else if s = ".graphql" ∨ s = ".gql" then .sdl
  else .text

/-! ### Fragments -/

/-- An edit of the content of a location. -/
inductive Patch where
  | tree (patch : TreePatch)
  | sdl (edit : Sdl.Edit)
  deriving Repr

/-- The word for a kind of edit. -/
def Patch.text : Patch → String
  | tree (.replaceAt _ _) => "replace-at-path"
  | tree (.appendAt _ _) => "list-append-at-path"
  | sdl (.addField _ _) => "add-field"
  | sdl (.removeField _ _) => "remove-field"
  | sdl (.replaceField _ _ _) => "replace-field"
  | sdl (.addDirectives _ _ _) => "add-directive"
  | sdl (.removeDirective _ _ _) => "remove-directive"

/-- Content that a fragment provides; the absent tree provides nothing. -/
inductive Payload where
  | tree (t : Tree)
  | document (d : Sdl.Document)
  | definition (d : Sdl.Definition)
  deriving Repr

/-- A fragment. -/
structure Fragment where
  location : String
  patch : Option Patch := none
  payload : Payload := .tree .null
  /-- A file that exists at the location may be replaced. -/
  replaceable : Bool := true
  deriving Repr

/-- The content of one location. -/
structure File where
  location : String
  body : String
  replaceable : Bool := true
  deriving DecidableEq, Repr

namespace Fragment

/-- A fragment that provides text. -/
def ofText (location text : String) : Fragment := { location, payload := .tree (.text text) }

/-- A fragment that provides a tree. -/
def ofTree (location : String) (t : Tree) : Fragment := { location, payload := .tree t }

/-- A fragment that edits a schema document. -/
def ofEdit (location : String) (edit : Sdl.Edit) : Fragment :=
  { location, patch := some (.sdl edit) }

/-- A fragment that edits a tree. -/
def ofPatch (location : String) (patch : TreePatch) : Fragment :=
  { location, patch := some (.tree patch) }

end Fragment

/-! ### Reading -/

/-- Reads the path and the value of a tree patch. -/
def readTreePatch (form : String) (make : String → Tree → TreePatch) (t : Tree) :
    Form.Check Patch := do
  let given ← Form.fieldsOf form t
  let path ← Form.needed given "path" Form.text
  return .tree (make path (← Form.needed given "value" Form.anything))

/-- Reads an edit of a type. -/
def readEdit (form : String) (rest : Form.Fields → String → Form.Check Sdl.Edit) (t : Tree) :
    Form.Check Patch := do
  let given ← Form.fieldsOf form t
  let type ← Form.needed given "type_name" Form.text
  return .sdl (← rest given type)

/-- Reads a patch by its kind. -/
def Patch.read : Tree → Form.Check Patch :=
  Form.tagged "op"
    [("replace-at-path", readTreePatch "ReplaceAtPath" .replaceAt),
      ("list-append-at-path", readTreePatch "ListAppendAtPath" .appendAt),
      ("add-field", readEdit "AddField" fun given type => do
        return .addField type (← Form.needed given "field" Form.text)),
      ("remove-field", readEdit "RemoveField" fun given type => do
        return .removeField type (← Form.needed given "field_name" Form.text)),
      ("replace-field", readEdit "ReplaceField" fun given type => do
        let name ← Form.needed given "field_name" Form.text
        return .replaceField type name (← Form.needed given "field" Form.text)),
      ("add-directive", readEdit "AddDirective" fun given type => do
        let name ← Form.defaulted given "field_name" none (Form.optional Form.text)
        return .addDirectives type name
          (← Form.needed given "directives" (Form.listOf Form.text))),
      ("remove-directive", readEdit "RemoveDirective" fun given type => do
        let name ← Form.defaulted given "field_name" none (Form.optional Form.text)
        return .removeDirective type name (← Form.needed given "directive" Form.text))]

/-- Reads a fragment whose payload was read before. -/
def Fragment.read (payload : Payload) (t : Tree) : Form.Check Fragment := do
  let given ← Form.fieldsOf "ArtifactFragment" t
  let location ← Form.needed given "location" Form.text
  let patch ← Form.defaulted given "patch" none (Form.optional Patch.read)
  let replaceable ← Form.defaulted given "replaceable" true Form.truth
  return { location, patch, payload, replaceable }

/-- Reads a file. -/
def File.read (t : Tree) : Form.Check File := do
  let given ← Form.fieldsOf "MaterializedFile" t
  let location ← Form.needed given "location" Form.text
  let body ← Form.needed given "body" Form.text
  let replaceable ← Form.defaulted given "replaceable" true Form.truth
  return { location, body, replaceable }

end SchemaLoom.Artifact
