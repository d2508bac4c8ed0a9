/-
Building a workspace.

A build reads the schema, compiles it together with all that it generates, puts the fragments
into the files that a former build left, and writes the files.  All files are put together
(`Job.files`) before the first is written (`writeFiles`).

Files that exist are kept if the build only appends or if they are not to be replaced (`isKept`).
-/
import SchemaLoom.Artifact.Assembly
import SchemaLoom.Compile
import SchemaLoom.Workspace.Config
import SchemaLoom.Workspace.FileTree

namespace SchemaLoom.Workspace

open Artifact

/-- Why a build fails. -/
inductive BuildFault where
  | compile (fault : Fault)
  | unread (fault : TextFault)
  | unwritten (path : Path) (fault : FileFault)
  /-- It cannot be told if there is a file already. -/
  | unseen (fault : FileFault)

/-- The wording of a fault. -/
def BuildFault.message : BuildFault → String
  | compile fault => fault.message
  | unread (.missing path) => "File not found: " ++ path.text
  | unread (.unreadable fault) => "Cannot read '" ++ fault.path.text ++ "': " ++ fault.message
  | unread (.undecodable path) => "Not a text: " ++ path.text
  | unwritten path fault => "Cannot write '" ++ path.text ++ "': " ++ fault.message
  | unseen fault => fault.message

/-- What is to be built. -/
structure Job where
  /-- The workspace, to which the paths of the configuration are relative. -/
  base : Path
  config : Config := {}

namespace Job

/-- The schema to compile. -/
def schemaPath (j : Job) : Path := j.base.join j.config.inSchema

/-- The folder to build into. -/
def buildPath (j : Job) : Path := j.base.join j.config.buildDirectory

end Job

/-! ### Putting files together -/

/-- The file of a location in a folder, if there is one. -/
def existingFile (t : FileTree) (folder : Path) (location : String) :
    Except BuildFault (Option (String × String)) := do
  if ← (t.isFile (folder.join location)).mapError .unseen then
    let text ← (t.readText (folder.join location)).mapError .unread
    return some (location, text)
  else return none

/-- The files of locations in a folder. -/
def existingFiles (t : FileTree) (folder : Path) (locations : List String) :
    Except BuildFault (List (String × String)) :=
  (locations.mapM (existingFile t folder)).map fun found => found.filterMap id

/-- The files of locations that a former build left, if there was one. -/
def formerFiles (former : Option (FileTree × Path)) (locations : List String) :
    Except BuildFault (List (String × String)) :=
  match former with
  | none => .ok []
  | some (t, folder) => existingFiles t folder locations

/-- The files that a schema gives rise to.  The published schema is made anew; all others start from
the files in a folder, if there is one. -/
def filesOf (schemaName : String) (scope : Sdl.Scope) (text : String)
    (former : Option (FileTree × Path)) : Report BuildFault (List File) := do
  let fragments ← (publish schemaName scope text).mapError .compile
  let others := (locations fragments).filter fun l => l ≠ "schema/" ++ schemaName
  let existing ← formerFiles former others
  (assemble fragments existing).mapError .compile

/-- The files of a job. -/
def Job.files (j : Job) (t : FileTree) : Report BuildFault (List File) := do
  let text ← (t.readText j.schemaPath).mapError BuildFault.unread
  filesOf j.schemaPath.name j.config.types text (some (t, j.buildPath))

/-- The paths of the files that a job puts together, as far as its schema can be compiled. -/
def Job.targets (j : Job) (t : FileTree) : List Path :=
  match t.readText j.schemaPath with
  | .error _ => []
  | .ok text =>
    match (publish j.schemaPath.name j.config.types text).outcome with
    | .error _ => []
    | .ok fragments => (locations fragments).map j.buildPath.join

/-! ### Writing -/

/-- What a run made of a file tree, and what it reports. -/
structure Effect (α : Type) where
  tree : FileTree
  report : Report BuildFault α

/-- The file `f` is not to be written, since one exists. -/
def isKept (t : FileTree) (folder : Path) (appendOnly : Bool) (f : File) : Except FileFault Bool :=
  (t.has (folder.join f.location)).map fun found => found && (appendOnly || !f.replaceable)

/-- Writes files into a folder, up to the first that cannot be written; reports the paths that were
written. -/
def writeFiles (folder : Path) (appendOnly : Bool) (t : FileTree) : List File → Effect (List Path)
  | [] => ⟨t, pure []⟩
  | f :: rest =>
    match isKept t folder appendOnly f with
    | .error fault => ⟨t, throw (.unseen fault)⟩
    | .ok true =>
      let others := writeFiles folder appendOnly t rest
      { others with report := Report.tell (.kept f.location) >>= fun _ => others.report }
    | .ok false =>
      let path := folder.join f.location
      match t.store path (.text f.body) with
      | (t, some fault) => ⟨t, throw (.unwritten path fault)⟩
      | (t, none) =>
        let others := writeFiles folder appendOnly t rest
        { others with
          report := do
            Report.tell (.wrote f.location)
            return path :: (← others.report) }

/-- Builds a workspace. -/
def Job.build (j : Job) (t : FileTree) : Effect (List Path) :=
  let files := j.files t
  match files.outcome with
  | .error fault => ⟨t, ⟨.error fault, files.notices⟩⟩
  | .ok fs =>
    let written := writeFiles j.buildPath j.config.appendOnly t fs
    { written with
      report := do
        let fs ← files
        let paths ← written.report
        Report.tell (.built paths.length fs.length j.buildPath.text)
        return paths }

end SchemaLoom.Workspace
