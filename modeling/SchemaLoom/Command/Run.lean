/-
Runs of the program.

A run starts from a file tree and a command line.  It leaves a file tree and what it prints, and
it ends with an exit code, or it breaks off on a fault that it has no words for (`Ending`).

Of the faults that a build or a configuration can have, `isWorded` and `failsInWords` say which
are told in words.
-/
import SchemaLoom.Command.Help
import SchemaLoom.Workspace.Build
import SchemaLoom.Workspace.Config

namespace SchemaLoom.Command

open Workspace

/-! ### Outcomes -/

/-- A fault that breaks a run off. -/
inductive Breakdown where
  | settings (fault : SettingsFault)
  | build (fault : BuildFault)
  | file (fault : FileFault)
  /-- An option that gives a path was given none. -/
  | pathless

/-- The wording of a breakdown. -/
def Breakdown.message : Breakdown → String
  | settings fault => fault.message
  | build fault => fault.message
  | file fault => fault.message
  | pathless => "a path is missing"

/-- How a run ends. -/
inductive Ending where
  | exit (code : Nat)
  | breakdown (b : Breakdown)

/-- What a run leaves. -/
structure Outcome where
  tree : FileTree
  /-- The lines on the standard output. -/
  output : List String := []
  /-- The lines on the standard error output. -/
  errors : List String := []
  ending : Ending := .exit 0

/-- A run that does nothing but fail with a message. -/
def Outcome.refused (tree : FileTree) (message : String) : Outcome :=
  { tree, errors := ["Error: " ++ message], ending := .exit 1 }

/-- A run that does nothing but break off. -/
def Outcome.brokenOff (tree : FileTree) (b : Breakdown) : Outcome :=
  { tree, ending := .breakdown b }

/-- The fault of a configuration is told in words. -/
def isWorded : SettingsFault → Bool
  | .file (.undecodable _) | .file (.unreadable ⟨.brokenName, _⟩) | .unseen _
  | .content _ (.badScalar _) | .content _ (.unorderedKeys _) => false
  | _ => true

/-- The fault of a build is told in words. -/
def failsInWords : BuildFault → Bool
  | .unread (.undecodable _) | .unread (.unreadable ⟨.brokenName, _⟩)
  | .unwritten _ ⟨.brokenName, _⟩ | .unseen _ | .compile (.existingScalar _) | .compile .unprintable
  | .compile (.unwritable _) | .compile (.badPatch .tooDeep) => false
  | _ => true

/-! ### Making workspaces -/

/-- The text of a new configuration file. -/
def newSettings : String := "# Dynagraph Workspace Configuration\n" ++ ({} : Config).render

/-- Makes a workspace of a folder. -/
def makeWorkspace (tree : FileTree) (folder : Path) : Outcome :=
  let path := folder.join settingsName
  match tree.has folder, tree.has path with
  | .error fault, _ | .ok true, .error fault => .brokenOff tree (.file fault)
  | .ok false, _ => .refused tree ("directory '" ++ folder.text ++ "' does not exist.")
  | .ok true, .ok true => .refused tree ("workspace already exists at '" ++ path.text ++ "'.")
  | .ok true, .ok false =>
    match tree.write path (.text newSettings) with
    | .error cause => .brokenOff tree (.file ⟨cause, path⟩)
    | .ok tree => { tree, output := ["Initialized Dynagraph workspace at '" ++ path.text ++ "'."] }

/-! ### Building workspaces -/

/-- A configuration that is overridden. -/
def Overrides.apply (o : Overrides) (c : Config) : Config where
  inSchema := (o.inSchema.bind (·.text?)).getD c.inSchema
  buildDirectory := (o.buildDirectory.bind (·.text?)).getD c.buildDirectory
  appendOnly := o.appendOnly || c.appendOnly
  types := o.types <|> c.types

/-- The configuration of a workspace, the default one if it has none. -/
def settings (tree : FileTree) (folder : Path) : Except SettingsFault Config := do
  let path := folder.join settingsName
  if ← (tree.has path).mapError .unseen then loadConfig tree path else return {}

/-- The job of building the workspace in a folder. -/
def jobIn (tree : FileTree) (folder : Path) (o : Overrides) : Except SettingsFault Job :=
  (settings tree folder).map fun config => { base := folder, config := o.apply config }

/-- The lines of a log; all notices are told only if that is asked for. -/
def log (isVerbose : Bool) (notices : List Notice) : List String :=
  (notices.filter fun n => isVerbose || n.severity = .warning).map (·.line)

/-- What a build leaves. -/
def Outcome.ofBuild (isVerbose : Bool) (j : Job) (e : Effect (List Path)) : Outcome :=
  let errors := log isVerbose e.report.notices
  match e.report.outcome with
  | .ok written =>
    { tree := e.tree
      output := ["Wrote " ++ toString written.length ++ " file(s) to '" ++ j.buildPath.text ++ "'."]
      errors }
  | .error fault =>
    if failsInWords fault then
      { tree := e.tree, errors := errors ++ ["Error: " ++ fault.message], ending := .exit 1 }
    else { tree := e.tree, errors, ending := .breakdown (.build fault) }

/-- Does a job.  The folder to build into is needed as soon as the schema has been read. -/
def perform (tree : FileTree) (o : Overrides) (isVerbose : Bool) (j : Job) : Outcome :=
  if o.inSchema = some .missing then .brokenOff tree .pathless
  else
    match tree.isFile j.schemaPath with
    | .error fault => .brokenOff tree (.file fault)
    | .ok false => .refused tree ("schema file '" ++ j.schemaPath.text ++ "' not found.")
    | .ok true =>
      if o.buildDirectory = some .missing ∧ (tree.readText j.schemaPath).isOk then
        .brokenOff tree .pathless
      else .ofBuild isVerbose j (j.build tree)

/-- Builds the workspace in a folder. -/
def build (tree : FileTree) (folder : Path) (o : Overrides) (isVerbose : Bool) : Outcome :=
  match tree.has folder with
  | .error fault => .brokenOff tree (.file fault)
  | .ok false => .refused tree ("directory '" ++ folder.text ++ "' does not exist.")
  | .ok true =>
    match jobIn tree folder o with
    | .error fault =>
      if isWorded fault then .refused tree fault.message else .brokenOff tree (.settings fault)
    | .ok job => Command.perform tree o isVerbose job

/-! ### Runs -/

/-- The folder that a word denotes in a working directory. -/
def folderOf (working : Path) (word : String) : Path := (working.join word).collapsed

/-- Does something in the folder that a word denotes. -/
def inFolder (tree : FileTree) (working : Path) (word : String) (act : Path → Outcome) : Outcome :=
  let path := working.join word
  if path.isBroken then .brokenOff tree (.file ⟨.brokenName, path⟩) else act path.collapsed

/-- Does what is asked for. -/
def Request.perform (tree : FileTree) (working : Path) : Request → Outcome
  | .help scene => { tree, output := scene.help }
  | .init directory => inFolder tree working directory (makeWorkspace tree)
  | .build directory overrides isVerbose =>
    inFolder tree working directory fun folder =>
      Command.build tree folder overrides isVerbose

/-- Runs the program in a working directory. -/
def run (tree : FileTree) (working : Path) (words : List String) : Outcome :=
  match Request.read words with
  | .error refusal => { tree, errors := refusal.report, ending := .exit 2 }
  | .ok request => request.perform tree working

/-- The paths that a run looks at, as far as they follow from what is known of the file tree. -/
def interest (known : FileTree) (working : Path) (words : List String) : List Path :=
  match Request.read words with
  | .error _ | .ok (.help _) => []
  | .ok (.init directory) => [(folderOf working directory).join settingsName]
  | .ok (.build directory overrides _) =>
    let folder := folderOf working directory
    let further :=
      match jobIn known folder overrides with
      | .error _ => []
      | .ok job => job.schemaPath :: job.targets known
    folder.join settingsName :: further

end SchemaLoom.Command
