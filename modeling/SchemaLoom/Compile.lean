/-
Compiling a document, and what was generated from it.

The directives of a document are dispatched in two phases, relations are classified, and what the
catalog then holds is emitted as fragments: that is `compileDocument`.  The part up to the
emission is `gather`.

Schema documents that a compilation generates are compiled in turn, each under its own file name,
so that edits of what it publishes address that document.  A text is compiled once.  The rounds
of `compileAll` end when one of them generates nothing new; there is a limit on their number.
-/
import SchemaLoom.Catalog.Classification
import SchemaLoom.Catalog.Emission

namespace SchemaLoom

open Artifact

/-! ### One document -/

/-- What compiling a document comes to. -/
structure Compilation where
  catalog : Catalog
  fragments : List Artifact.Fragment

namespace Catalog

/-- Notices about access rules of fields that are not bound to a function. -/
def unboundRules (c : Catalog) : List Notice :=
  (c.fieldRules.map (·.1)).filterMap fun place =>
    if c.isFunction place.1 place.2 then none else some (.unboundRule place.1 place.2)

/-- A catalog with all that the directives of its document declare. -/
def gather (c : Catalog) : Report Fault Catalog := do
  let c ← (c.dispatch .register).report
  let c ← (c.dispatch .collect).report
  let (classified, notices) := c.classify
  ⟨.ok classified, c.unboundRules ++ notices⟩

end Catalog

/-- Compiles a document that is known by a file name. -/
def compileDocument (schemaName : String) (scope : Sdl.Scope) (document : Sdl.Document) :
    Report Fault Compilation := do
  let catalog ← Catalog.gather { document, schemaName, scope }
  let fragments ← catalog.emit
  Report.tell (.compiled schemaName catalog.tables.length fragments.length)
  return ⟨catalog, fragments⟩

/-- Compiles a text that is known by a file name. -/
def compile (schemaName : String) (scope : Sdl.Scope) (text : String) :
    Report Fault Compilation := do
  compileDocument schemaName scope (← parseSchema schemaName text)

/-! ### Rounds -/

/-- How far the rounds have come. -/
structure Rounds where
  /-- The texts that were compiled or are about to be. -/
  known : List String
  /-- The documents of the next round, by file name. -/
  pending : List (String × String)
  fragments : List Fragment := []

namespace Rounds

/-- The greatest number of rounds. -/
def limit : Nat := 16

/-- The schema document that a fragment provides, unless it is what its compilation publishes. -/
def generated? (published : String) (f : Fragment) : Option (String × String) :=
  match medium f.location, f.patch, f.payload with
  | .sdl, none, .tree (.text text) =>
    if f.location = published then none else some (fileName f.location, text)
  | _, _, _ => none

/-- Rounds after a fragment was looked at. -/
def look (published : String) (r : Rounds) (f : Fragment) : Rounds :=
  match generated? published f with
  | none => r
  | some (name, text) =>
    if r.known.contains text then r
    else { r with known := text :: r.known, pending := r.pending ++ [(name, text)] }

/-- Rounds after the compilation of one document. -/
def compileOne (scope : Sdl.Scope) (r : Rounds) (d : String × String) : Report Fault Rounds := do
  let compilation ← compile d.1 scope d.2
  let r := { r with fragments := r.fragments ++ compilation.fragments }
  return compilation.fragments.foldl (look compilation.catalog.publishedLocation) r

/-- Rounds after one more of them. -/
def next (scope : Sdl.Scope) (r : Rounds) : Report Fault Rounds :=
  r.pending.foldlM (compileOne scope) { r with pending := [] }

/-- Rounds until nothing is left to compile; `done` of them have passed, and at most `more` may
follow. -/
def run (scope : Sdl.Scope) (done : Nat) (more : Nat) (r : Rounds) : Report Fault Rounds :=
  if r.pending.isEmpty then return r
  else
    match more with
    | 0 => throw (.unsettled done)
    | more + 1 => do
      let after ← r.next scope
      Report.tell (.roundEnded (done + 1) r.pending.length)
      run scope (done + 1) more after

end Rounds

/-- The fragments of a text and of all documents that it generates. -/
def compileAll (schemaName : String) (scope : Sdl.Scope) (text : String) :
    Report Fault (List Fragment) := do
  let start : Rounds := { known := [text], pending := [(schemaName, text)] }
  return (← start.run scope 0 Rounds.limit).fragments

/-- The fragments of all files, among which is always the published schema. -/
def publish (schemaName : String) (scope : Sdl.Scope) (text : String) :
    Report Fault (List Fragment) := do
  let location := "schema/" ++ schemaName
  let fragments ← compileAll schemaName scope text
  return if fragments.any fun f => f.location = location then fragments
    else Fragment.ofText location text :: fragments

end SchemaLoom
