/-
Assembling files from fragments.

Fragments are grouped by location, the locations in the order in which they first occur and the
fragments of a location in their own order (`groups`).  Each group is then folded into one text,
starting from the file that exists at the location.  Texts ignore that file, and so does a
fragment that provides a tree: it replaces all that came before it.

There is one fold for each medium: `assembleText`, `assembleTree` and `assembleDocument`.  The
last two go through the fragments one by one, by `stepTree` and `stepDocument`, and stop at the
first that does not fit what was built up before.
-/
import SchemaLoom.Artifact.Fragment
import SchemaLoom.Fault
import SchemaLoom.Report
import SchemaLoom.Yaml.Reading

namespace SchemaLoom

/-- What a definition of a kind is called where it stands in place of a text. -/
def Sdl.DefinitionKind.caption : Sdl.DefinitionKind → String
  | .operation => "OperationDefinitionNode"
  | .fragment => "FragmentDefinitionNode"
  | .schema => "SchemaDefinitionNode"
  | .scalar => "ScalarTypeDefinitionNode"
  | .object => "ObjectTypeDefinitionNode"
  | .interface => "InterfaceTypeDefinitionNode"
  | .union => "UnionTypeDefinitionNode"
  | .enum => "EnumTypeDefinitionNode"
  | .input => "InputObjectTypeDefinitionNode"
  | .directive => "DirectiveDefinitionNode"
  | .schemaExtension => "SchemaExtensionNode"
  | .scalarExtension => "ScalarTypeExtensionNode"
  | .objectExtension => "ObjectTypeExtensionNode"
  | .interfaceExtension => "InterfaceTypeExtensionNode"
  | .unionExtension => "UnionTypeExtensionNode"
  | .enumExtension => "EnumTypeExtensionNode"
  | .inputExtension => "InputObjectTypeExtensionNode"

namespace Artifact

/-! ### Groups -/

/-- The locations that fragments are addressed to, in the order in which they first occur. -/
def locations (fs : List Fragment) : List String := Text.distinct (fs.map (·.location))

/-- The fragments that are addressed to a location. -/
def addressedTo (location : String) (fs : List Fragment) : List Fragment :=
  fs.filter fun f => f.location = location

/-- The fragments of each location. -/
def groups (fs : List Fragment) : List (String × List Fragment) :=
  (locations fs).map fun location => (location, addressedTo location fs)

/-! ### Texts -/

/-- The text that a payload stands for; the absent tree stands for none. -/
def Payload.display? : Payload → Option String
  | .tree .null => none
  | .tree t => some t.display
  | .document _ => some "DocumentNode"
  | .definition d => some d.kind.caption

/-- The texts of fragments, each on lines of its own. -/
def assembleText (fs : List Fragment) : String :=
  Text.unlines (fs.filterMap fun f => f.payload.display?)

/-! ### Structured texts -/

/-- The width at which structured artifacts are folded. -/
def pageWidth : Nat := 100

/-- What stands at a structured location. -/
inductive Draft where
  | forest (f : Forest)
  /-- A schema document, which is no tree. -/
  | schema

/-- The tree of a draft. -/
def Draft.toForest : Draft → Forest
  | forest f => f
  | schema => .ofTree .null

/-- A payload as a draft. -/
def Payload.draft : Payload → Draft
  | .tree t => .forest (.ofTree t)
  | .document _ | .definition _ => .schema

/-- What an existing structured file holds; without a file, or in an empty one, that is an empty
mapping. -/
def startTree (location : String) : Option String → Except Fault Forest
  | none => .ok (.ofTree (.map []))
  | some text =>
    match Yaml.read text with
    | .error .malformed => .error (.existingMalformed location)
    | .error fault => .error (.existingScalar fault)
    | .ok f => .ok (if f.root.isNull then .ofTree (.map []) else f)

/-- A draft after one fragment. -/
def stepTree (location : String) (draft : Draft) (f : Fragment) : Except Fault Draft :=
  match f.patch with
  | none => .ok f.payload.draft
  | some (.tree patch) => ((draft.toForest.patch patch).mapError .badPatch).map .forest
  | some patch => .error (.misplacedEdit location patch.text "a YAML")

/-- The text of a draft. -/
def Draft.render : Draft → Except Fault String
  | forest f =>
    match Yaml.obstacle? f with
    | none => .ok (Yaml.print pageWidth f)
    | some obstacle => .error (.unwritable obstacle)
  | schema => .error .unprintable

/-- The structured text that fragments make of a file. -/
def assembleTree (location : String) (existing : Option String) (fs : List Fragment) :
    Except Fault String := do
  let start ← startTree location existing
  let draft ← fs.foldlM (stepTree location) (.forest start)
  draft.render

/-! ### Schema documents -/

/-- What content that is no schema text is called. -/
def contentKind : Tree → String
  | .null => "NoneType"
  | .bool _ => "bool"
  | .int _ => "int"
  | .float _ => "float"
  | .list _ => "list"
  | .map _ => "dict"
  | .set _ => "set"
  | .leaf (.bytes _) => "bytes"
  | .leaf (.notANumber _) => "float"
  | .leaf (.date _ _) => "date"
  | .leaf (.timestamp _ _) => "datetime"
  | .text _ | .leaf (.codes _) => "str"
  | .shared _ => "object"

/-- The definitions that a payload provides. -/
def Payload.definitions (location : String) : Payload → Except Fault (List Sdl.Definition)
  | .tree (.text s) => (·.definitions) <$> parseSchema location s
  | .tree t => .error (.unsupportedContent location (contentKind t))
  | .document d => .ok d.definitions
  | .definition d => .ok [d]

/-- A document after one fragment. -/
def stepDocument (location : String) (d : Sdl.Document) (f : Fragment) :
    Except Fault Sdl.Document :=
  match f.patch with
  | none => do return d.append (← f.payload.definitions location)
  | some (.sdl edit) => (d.edit edit).mapError .badEdit
  | some patch => .error (.misplacedEdit location patch.text "an SDL")

/-- What an existing schema document holds. -/
def startDocument (location : String) : Option String → Except Fault Sdl.Document
  | none => .ok .empty
  | some text => parseSchema location text

/-- The schema document that fragments make of a file. -/
def assembleDocument (location : String) (existing : Option String) (fs : List Fragment) :
    Except Fault Sdl.Document := do
  fs.foldlM (stepDocument location) (← startDocument location existing)

/-! ### Files -/

/-- The text that fragments make of a file. -/
def assembleBody (location : String) (existing : Option String) (fs : List Fragment) :
    Except Fault String :=
  match medium location with
  | .text => .ok (assembleText fs)
  | .structured => assembleTree location existing fs
  | .sdl => (·.render) <$> assembleDocument location existing fs

/-- The file of one group; it may be replaced if all its fragments allow that. -/
def assembleFile (location : String) (existing : Option String) (fs : List Fragment) :
    Report Fault File := do
  let body ← assembleBody location existing fs
  Report.tell (.assembled location fs.length)
  return { location, body, replaceable := fs.all (·.replaceable) }

/-- The files that fragments make of those that exist, given as texts by location. -/
def assemble (fs : List Fragment) (existing : List (String × String)) : Report Fault (List File) :=
  (groups fs).mapM fun g => assembleFile g.1 (existing.lookup g.1) g.2

end Artifact

end SchemaLoom
