/-
The configuration of a workspace.

A configuration is a mapping with at most four keys.  Each of them has a default, and a text
that denotes nothing is the default configuration.  `Config.parse` reads it from a text, and
`Workspace.loadConfig` from the file that a workspace keeps it in.
-/
import SchemaLoom.Workspace.FileTree
import SchemaLoom.Yaml.Printer
import SchemaLoom.Yaml.Reading

namespace SchemaLoom

/-- A configuration; the paths are relative to the workspace. -/
structure Config where
  inSchema : String := "schema.graphql"
  buildDirectory : String := "build"
  /-- Files that exist in the build directory are kept. -/
  appendOnly : Bool := false
  /-- The types on which directives act; all of them if there is no list. -/
  types : Option (List String) := none
  deriving DecidableEq, Repr

/-- Why a text is no configuration. -/
inductive ConfigFault where
  | malformed
  /-- A scalar of the text has no value. -/
  | badScalar (fault : Yaml.Fault)
  | notAMapping
  | unknownKeys (keys : List Scalar)
  /-- The unknown keys cannot be put in order. -/
  | unorderedKeys (keys : List Scalar)
  | notText (key : String)
  | notTruth (key : String)
  | notList (key : String)
  | itemNotText (key : String) (index : Nat)
  deriving DecidableEq, Repr

/-- What messages say in place of the details of malformed text. -/
def malformedDetails : String := "<yaml>"

/-- The wording of a fault of the text that `label` names. -/
def ConfigFault.message (label : String) : ConfigFault → String
  | malformed | badScalar _ => "Invalid YAML in " ++ label ++ ": " ++ malformedDetails
  | notAMapping => label ++ ": workspace config must be a YAML mapping"
  | unknownKeys keys | unorderedKeys keys =>
    label ++ ": unknown field(s): " ++ ", ".intercalate (keys.map (·.display))
  | notText key => label ++ ": '" ++ key ++ "' must be a string"
  | notTruth key => label ++ ": '" ++ key ++ "' must be a boolean"
  | notList key => label ++ ": '" ++ key ++ "' must be a list"
  | itemNotText key index => label ++ ": " ++ key ++ "[" ++ toString index ++ "] must be a string"

namespace Config

/-- The keys of a configuration. -/
def keys : List String := ["in-schema", "build-directory", "append-only", "types"]

/-- The key is one of a configuration. -/
def isKnown (key : Scalar) : Bool := keys.any fun k => key.sameKey (.text k)

/-- Keys in ascending order. -/
def sorted (ks : List Scalar) : List Scalar := ks.mergeSort fun a b => !(b.lt? a).getD false

/-- Every two of the keys have an order. -/
def areOrdered : List Scalar → Bool
  | [] => true
  | k :: ks => ks.all (fun other => (k.lt? other).isSome) && areOrdered ks

/-- Refuses unknown keys. -/
def checkKeys (ks : List Scalar) : Except ConfigFault Unit :=
  match ks.filter fun k => !isKnown k with
  | [] => .ok ()
  | unknown =>
    if areOrdered unknown then
      if unknown.all (·.isWritable) then .error (.unknownKeys (sorted unknown))
      else .error (.badScalar .outOfRange)
    else .error (.unorderedKeys unknown)

/-- The text of a key, or the default. -/
def readText (key : String) (default : String) : Option Tree → Except ConfigFault String
  | none => .ok default
  | some (.leaf s) => s.shownText?.elim (.error (.notText key)) .ok
  | some _ => .error (.notText key)

/-- The truth value of a key, or the default. -/
def readTruth (key : String) (default : Bool) : Option Tree → Except ConfigFault Bool
  | none => .ok default
  | some (.bool truth) => .ok truth
  | some _ => .error (.notTruth key)

/-- The texts that items are, from a position on. -/
def readItems (key : String) : Nat → List Tree → Except ConfigFault (List String)
  | _, [] => .ok []
  | i, .leaf s :: ts =>
    match s.shownText? with
    | some text => (readItems key (i + 1) ts).map (text :: ·)
    | none => .error (.itemNotText key i)
  | i, _ :: _ => .error (.itemNotText key i)

/-- The texts of a key; the absent value stands for the absent key. -/
def readTexts (key : String) : Option Tree → Except ConfigFault (Option (List String))
  | none | some .null => .ok none
  | some (.list items) => (readItems key 0 items).map some
  | some _ => .error (.notList key)

/-- The configuration that a forest holds. -/
def ofForest (f : Forest) : Except ConfigFault Config :=
  match f.resolve f.root with
  | .null => .ok {}
  | .map entries => do
    checkKeys (entries.map (·.1))
    let value := fun (key : String) => (Tree.lookup (.text key) entries).map f.resolve
    let inSchema ← readText "in-schema" "schema.graphql" (value "in-schema")
    let buildDirectory ← readText "build-directory" "build" (value "build-directory")
    let appendOnly ← readTruth "append-only" false (value "append-only")
    let types ← readTexts "types" (value "types")
    return { inSchema, buildDirectory, appendOnly, types }
  | _ => .error .notAMapping

/-- The configuration that a text holds. -/
def parse (text : String) : Except ConfigFault Config :=
  match Yaml.read text with
  | .ok f => ofForest f
  | .error .malformed => .error .malformed
  | .error fault => .error (.badScalar fault)

/-- The width at which a configuration is folded. -/
def pageWidth : Nat := 80

/-- The tree of a configuration. -/
def toTree (c : Config) : Tree :=
  Tree.record <|
    [("in-schema", .text c.inSchema), ("build-directory", .text c.buildDirectory),
      ("append-only", .bool c.appendOnly)]
      ++ (c.types.map fun types => ("types", Tree.list (types.map Tree.text))).toList

/-- The text of a configuration. -/
def render (c : Config) : String := Yaml.print pageWidth (.ofTree c.toTree)

end Config

namespace Workspace

/-! ### The configuration file -/

/-- The name of the configuration file of a workspace. -/
def settingsName : String := ".dynagraph.yaml"

/-- Why a configuration cannot be loaded. -/
inductive SettingsFault where
  | file (fault : TextFault)
  /-- It cannot be told if there is a configuration file. -/
  | unseen (fault : FileFault)
  | content (path : Path) (fault : ConfigFault)
  deriving DecidableEq, Repr

/-- The wording of a fault. -/
def SettingsFault.message : SettingsFault → String
  | file (.missing path) => "Workspace config file not found: " ++ path.text
  | file (.unreadable fault) => "Cannot read workspace config file: " ++ fault.message
  | file (.undecodable path) => "Workspace config file is not a text: " ++ path.text
  | unseen fault => fault.message
  | content path fault => fault.message path.text

/-- The configuration that a file holds. -/
def loadConfig (t : FileTree) (p : Path) : Except SettingsFault Config := do
  let text ← (t.readText p).mapError .file
  (Config.parse text).mapError (.content p)

end Workspace

end SchemaLoom
