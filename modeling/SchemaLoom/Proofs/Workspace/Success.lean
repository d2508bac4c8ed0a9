/-
When a build succeeds.

A build fails because of its schema, of a file that it starts from, of a file that cannot be put
together, or of a path at which no file can be written.  Where none of these stands in the way,
it succeeds (`exists_build`).  Generated documents never do: they are put together of whatever
documents a former build left (`exists_build_of_compile`).

That a path accepts a file has to hold when the file is written, and not only when the build
begins.  It does, since files that are written before make no folder and leave a path to a file
as it is (`Accepts.put`).
-/
import SchemaLoom.Proofs.Compile.RootTypes
import SchemaLoom.Proofs.Workspace.Failure

namespace SchemaLoom

open Artifact
open Sdl (Document)

namespace Workspace

/-! ### Trees with one more file -/

namespace FileTree

variable {t : FileTree} {p : Path} {place : Place}

/-- A path that accepts a file goes on to do so while files are written. -/
theorem Accepts.put (h : t.Accepts p) (hfree : t.at? place ≠ some .folder) (content : Content) :
    (t.put place (.file content)).Accepts p := by
  obtain ⟨own, hown, hownfree⟩ := h
  have hput := grows_put (ne_nil_of_free hfree) (Or.inr ⟨hfree, content, rfl⟩)
  refine ⟨own, hput.locate hown, ?_⟩
  by_cases hsame : own = place
  · rw [hsame, at?_put_self _ (ne_nil_of_free hfree)]
    exact nofun
  · rwa [at?_put_of_ne _ hsame]

/-- A file in a folder leaves a tree closed. -/
theorem IsClosed.put (h : t.IsClosed) (hfree : t.at? place ≠ some .folder)
    (hfolder : t.at? place.dropLast = some .folder) (content : Content) :
    (t.put place (.file content)).IsClosed := by
  have hput := grows_put (ne_nil_of_free hfree) (Or.inr ⟨hfree, content, rfl⟩)
  intro other hroot hthere
  by_cases hsame : other = place
  · exact hput.folder (hsame ▸ hfolder)
  · rw [at?_put_of_ne _ hsame] at hthere
    exact hput.folder (h other hroot hthere)

end FileTree

variable {folder : Path} {t : FileTree} {files : List File}
  {fragments : List Fragment} {j : Job} {text : String} {first : Compilation}

/-! ### Writing -/

theorem exists_isKept (appendOnly : Bool) {f : File} (h : t.Accepts (folder.join f.location)) :
    ∃ kept, isKept t folder appendOnly f = .ok kept := by
  obtain ⟨place, hplace, -⟩ := h
  refine ⟨(t.at? place).isSome && (appendOnly || !f.replaceable), ?_⟩
  simp [isKept, FileTree.has, FileTree.get?, hplace, Except.map]

/-- **Files are written if all of their paths accept one.** -/
theorem exists_written (appendOnly : Bool) (h : ∀ f ∈ files, t.Accepts (folder.join f.location)) :
    ∃ paths, (writeFiles folder appendOnly t files).report.outcome = .ok paths := by
  induction files generalizing t with
  | nil => exact ⟨[], rfl⟩
  | cons f rest ih =>
    rw [List.forall_mem_cons] at h
    obtain ⟨kept, hkept⟩ := exists_isKept appendOnly h.1
    unfold writeFiles
    rw [hkept]
    cases kept with
    | true =>
      obtain ⟨paths, hpaths⟩ := ih h.2
      refine ⟨paths, ?_⟩
      dsimp only
      rw [Report.outcome_bind]
      exact hpaths
    | false =>
      obtain ⟨place, hplace, hfree⟩ := h.1
      obtain ⟨paths, hpaths⟩ := ih fun g hg => (h.2 g hg).put hfree (.text f.body)
      refine ⟨folder.join f.location :: paths, ?_⟩
      dsimp only
      rw [FileTree.store_of_free hplace hfree]
      simp only [Report.outcome_bind, hpaths, Outcome.ok_bind]
      rfl

/-! ### Building

A build can only fail for want of a text, of a file that can be put together, or of a path that
accepts it.
-/

namespace Job

/-- **A build succeeds if every location has a file that can be put together and a path that accepts
it** (`FileTree.Accepts`). -/
theorem exists_build (hcompiles : j.Compiles t fragments)
    (hbodies : ∀ location ∈ locations fragments, ∃ found body,
      existingFile t j.buildPath location = .ok found ∧
      assembleBody location (if location = j.published then none else found.map (·.2))
        (addressedTo location fragments) = .ok body)
    (haccepts : ∀ location ∈ locations fragments, t.Accepts (j.buildPath.join location)) :
    ∃ written, (j.build t).report.outcome = .ok written := by
  obtain ⟨existing, hexisting⟩ : ∃ existing,
      existingFiles t j.buildPath (j.merged fragments) = .ok existing := by
    refine exists_existingFiles fun location hlocation => ?_
    obtain ⟨found, -, hfound, -⟩ := hbodies location (List.mem_filter.1 hlocation).1
    exact ⟨found, hfound⟩
  obtain ⟨files, hfiles⟩ : ∃ files, (assemble fragments existing).outcome = .ok files := by
    refine exists_assemble fun location hlocation => ?_
    obtain ⟨found, body, hfound, hbody⟩ := hbodies location hlocation
    refine ⟨body, ?_⟩
    by_cases hown : location = j.published
    · rw [if_pos hown] at hbody
      rwa [lookup_existingFiles_of_not_mem hexisting (by simp [merged, hown])]
    · have hmerged : location ∈ j.merged fragments :=
        List.mem_filter.2 ⟨hlocation, by simpa using hown⟩
      rw [if_neg hown] at hbody
      rwa [lookup_existingFiles_of_mem hexisting hmerged hfound]
  obtain ⟨paths, hpaths⟩ := exists_written j.config.appendOnly fun f hf =>
    haccepts f.location (of_mem_assemble hfiles hf).1
  exact ⟨paths, (build_of_files (files_eq_ok.2
    ⟨fragments, existing, hcompiles, hexisting, hfiles⟩)).2 paths hpaths⟩

/-- The location can be put together: it is that of a generated document beside documents, or
nothing is there to begin with. -/
def Joins (j : Job) (t : FileTree) (fragments : List Fragment) (location : String) : Prop :=
  (∃ name, location = "schema/" ++ name ∧ j.schemaPath.name ≠ name ∧ medium location = .sdl ∧
    ∃ found start, existingFile t j.buildPath location = .ok found ∧
      startDocument location (found.map (·.2)) = .ok start) ∨
  existingFile t j.buildPath location = .ok none ∧
    ∃ body, assembleBody location none (addressedTo location fragments) = .ok body

/-- **A schema with a table is built, where its locations can be put together and accept files.** -/
theorem exists_build_of_compile (htext : t.readText j.schemaPath = .ok text)
    (hgives : SchemaLoom.GivesNames j.schemaPath.name j.config.types text)
    (hfirst : (compile j.schemaPath.name j.config.types text).outcome = .ok first)
    (htable : ∃ body ∈ first.catalog.document.objects, Catalog.saysTable j.config.types body = true)
    (hjoins : ∀ location ∈ locations first.fragments, j.Joins t first.fragments location)
    (haccepts : ∀ location ∈ locations first.fragments, t.Accepts (j.buildPath.join location)) :
    ∃ written, (j.build t).report.outcome = .ok written := by
  have hcompiles : j.Compiles t first.fragments :=
    ⟨text, htext, outcome_publish hfirst hgives htable⟩
  refine exists_build hcompiles (fun location hlocation => ?_) haccepts
  rcases hjoins location hlocation with
    ⟨name, rfl, hother, hmedium, found, start, hfound, hstart⟩ | ⟨hfound, body, hbody⟩
  · have hapart : "schema/" ++ name ≠ j.published := fun hsame =>
      hother ((String.append_right_inj "schema/").1 hsame).symm
    obtain ⟨body, hbody⟩ := Compilation.exists_body hfirst hgives hother hmedium hstart
    exact ⟨found, body, hfound, by rwa [if_neg hapart]⟩
  · exact ⟨none, body, hfound, by rwa [Option.map_none, ite_self]⟩

end Job

end Workspace

end SchemaLoom
