/-
The program.

What the run looks at is read from the disk; the run itself is a function of that
(`Command.run`); what it has changed is written back.

What a run looks at depends on what it finds, so the disk is read in steps.  `Command.interest`
says which paths are wanted next.
-/
import SchemaLoom.Command.Run

namespace SchemaLoom

open Command Workspace

/-- What is on the disk at a place. -/
def probe (place : Place) : IO (Option Entry) := do
  let path := (← IO.currentDir) / (Workspace.Path.mk place false).text
  if ← path.isDir then return some .folder
  if ← path.pathExists then return some (.file (.ofBytes (← IO.FS.readBinFile path)))
  return none

/-- A tree in which everything on the way along a path is known. -/
def look (known : FileTree) (p : Path) : IO FileTree := do
  let mut tree := known
  let mut place : Place := []
  for name in p.names do
    place := if name = upward then place.dropLast else place ++ [name]
    if let some entry := ← probe place then tree := tree.put place entry
  return tree

/-- Writes what is at a place to the disk. -/
def save (place : Place) (entry : Entry) : IO Unit := do
  let path := (← IO.currentDir) / (Workspace.Path.mk place false).text
  match entry with
  | .folder => IO.FS.createDirAll path
  | .file (.text s) => IO.FS.writeFile path s
  | .file (.raw bytes) => IO.FS.writeBinFile path ⟨bytes.toArray⟩

/-- Runs the program on the disk. -/
def runOnDisk (words : List String) : IO UInt32 := do
  let working := Workspace.Path.root.join (← IO.currentDir).toString
  let mut known : FileTree := {}
  -- The configuration leads to the schema, and the schema to the files that are built.
  for _ in List.range 3 do
    for p in interest known working words do
      known ← look known p
  let outcome := Command.run known working words
  for (place, entry) in outcome.tree.entries.mergeSort fun a b => a.1.length ≤ b.1.length do
    if known.at? place ≠ some entry then save place entry
  for line in outcome.output do IO.println line
  for line in outcome.errors do IO.eprintln line
  match outcome.ending with
  | .exit code => return UInt32.ofNat code
  | .breakdown b =>
    IO.eprintln ("Error: " ++ b.message)
    return 1

end SchemaLoom

/-- Runs the program. -/
def main (words : List String) : IO UInt32 := SchemaLoom.runOnDisk words
