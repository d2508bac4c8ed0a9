/-
Building again.

A build that succeeded leaves every file as it put it together, or as it was.  Building once more
compiles the same schema to the same fragments.  What it finds of a file that was written is what
it wrote, from which it puts together the same (`body_again`); what it finds of a file that was
kept is what the first build found there too, unless the path to the file led nowhere then
(`found_again`).

Such a file is the only reason for which the second build may fail: the first one kept it without
ever having read it.  For this the path of the build directory has to lead through a folder that
the first build made, and back.

The conditions are about the first build.  Its schema gives names only, so that fragments are
known by kind; what it puts together is read as what it was made from (`ReadsBack`); and it does
not write over its schema (`SparesSchema`).  All of them can be evaluated, which the last section
does for one schema and any folder to build into.
-/
import SchemaLoom.Proofs.Catalog.Placement
import SchemaLoom.Proofs.Compile.Ending
import SchemaLoom.Proofs.Workspace.Files
import SchemaLoom.Proofs.Workspace.Path

namespace SchemaLoom

open Artifact

/-! ### Fragments -/

/-- **All fragments of a schema that gives names only have locations that join file names
(`IsLocation`), and outside of the published schema they make again what they made (`Renews`).** -/
theorem of_publish {schemaName text : String} {scope : Sdl.Scope} {fragments : List Fragment}
    (hname : IsFileName schemaName) (hgives : GivesNames schemaName scope text)
    (h : (publish schemaName scope text).outcome = .ok fragments) :
    (∀ location ∈ locations fragments, IsLocation location) ∧
      ∀ location ≠ "schema/" ++ schemaName, Renews location fragments := by
  unfold publish at h
  dsimp only at h
  rw [Report.outcome_bind] at h
  obtain ⟨all, hall, h⟩ := Outcome.of_bind_eq_ok h
  obtain ⟨first, hfirst, rfl⟩ := compileAll_eq_first hgives hall
  obtain ⟨hdocument, htables⟩ := Compilation.isNamed hgives hfirst
  obtain ⟨hrooted, hsame, hemit⟩ := Compilation.of_compile hfirst
  have hpublished : first.catalog.publishedLocation = "schema/" ++ schemaName := by
    rw [Catalog.publishedLocation, hsame]
  have hplaces : ∀ f ∈ first.fragments, IsLocation f.location := fun f hf =>
    (Catalog.emits_of_emit hemit f hf).isLocation hrooted hdocument htables (hsame ▸ hname)
  have hrenews : ∀ location ≠ "schema/" ++ schemaName, Renews location first.fragments :=
    fun location hother => Catalog.renews_emit hemit (hpublished ▸ hother)
  -- The published schema may be a file of its own, put in front of the fragments.
  have hown : IsLocation ("schema/" ++ schemaName) :=
    isLocation_within Catalog.isFileName_schema hname
  have hmem : ∀ {fs : List Fragment}, (∀ f ∈ fs, IsLocation f.location) →
      ∀ location ∈ locations fs, IsLocation location := by
    intro fs hfs location hlocation
    rw [locations, Text.mem_distinct] at hlocation
    obtain ⟨f, hf, rfl⟩ := List.mem_map.1 hlocation
    exact hfs f hf
  split at h
  · cases h
    exact ⟨hmem hplaces, hrenews⟩
  · cases h
    refine ⟨hmem (List.forall_mem_cons.2 ⟨hown, hplaces⟩), ?_⟩
    intro location hother
    have haddressed : addressedTo location (Fragment.ofText ("schema/" ++ schemaName) text
        :: first.fragments) = addressedTo location first.fragments := by
      rw [addressedTo_cons, if_neg (by exact Ne.symm hother), List.nil_append]
    obtain ⟨hleads, hplain⟩ := hrenews location hother
    refine ⟨?_, ?_⟩
    · rwa [Leads, haddressed]
    · rwa [haddressed]

namespace Workspace

variable {j : Job} {t after : FileTree} {fragments : List Fragment} {files : List File}
  {written : List Path}

/-! ### One build -/

namespace Job

/-- Where a job places the published schema. -/
def published (j : Job) : String := "schema/" ++ j.schemaPath.name

/-- The locations whose files a job starts from. -/
def merged (j : Job) (fragments : List Fragment) : List String :=
  (locations fragments).filter fun location => location ≠ j.published

/-- The schema of the job is read from `t` and compiles to `fragments`. -/
def Compiles (j : Job) (t : FileTree) (fragments : List Fragment) : Prop :=
  ∃ text, t.readText j.schemaPath = .ok text ∧
    (publish j.schemaPath.name j.config.types text).outcome = .ok fragments

theorem files_eq_ok :
    (j.files t).outcome = .ok files ↔ ∃ fragments existing, j.Compiles t fragments ∧
      existingFiles t j.buildPath (j.merged fragments) = .ok existing ∧
      (assemble fragments existing).outcome = .ok files := by
  unfold Job.files filesOf
  simp only [Report.outcome_bind, Report.outcome_mapError, Report.outcome_lift]
  constructor
  · intro h
    obtain ⟨text, htext, h⟩ := Outcome.of_bind_eq_ok h
    obtain ⟨fragments, hpublish, h⟩ := Outcome.of_bind_eq_ok h
    obtain ⟨existing, hexisting, h⟩ := Outcome.of_bind_eq_ok h
    exact ⟨fragments, existing, ⟨text, Outcome.of_mapError_eq_ok htext,
      Outcome.of_mapError_eq_ok hpublish⟩, hexisting, Outcome.of_mapError_eq_ok h⟩
  · rintro ⟨fragments, existing, ⟨text, htext, hpublish⟩, hexisting, hfiles⟩
    have hread : (t.readText j.schemaPath).mapError BuildFault.unread = .ok text := by
      rw [htext]
      rfl
    have hall : (publish j.schemaPath.name j.config.types text).outcome.mapError
        BuildFault.compile = .ok fragments := by
      rw [hpublish]
      rfl
    have hfound : formerFiles (some (t, j.buildPath))
        ((locations fragments).filter fun l => l ≠ "schema/" ++ j.schemaPath.name)
          = .ok existing := hexisting
    rw [hread, Outcome.ok_bind, hall, Outcome.ok_bind, hfound, Outcome.ok_bind, hfiles]
    rfl

/-- A schema is compiled in one way. -/
theorem Compiles.unique (h : j.Compiles t fragments) {others : List Fragment}
    (hothers : j.Compiles t others) : others = fragments := by
  obtain ⟨text, htext, hpublish⟩ := h
  obtain ⟨other, hother, hpublish'⟩ := hothers
  rw [htext] at hother
  cases hother
  rw [hpublish] at hpublish'
  exact (Except.ok.inj hpublish').symm

/-- A build that succeeds has put files together and written them. -/
theorem of_build (h : (j.build t).report.outcome = .ok written) :
    ∃ files, (j.files t).outcome = .ok files ∧
      (writeFiles j.buildPath j.config.appendOnly t files).report.outcome = .ok written ∧
      (j.build t).tree = (writeFiles j.buildPath j.config.appendOnly t files).tree := by
  unfold Job.build at h ⊢
  dsimp only at h ⊢
  cases hfiles : (j.files t).outcome with
  | error fault =>
    rw [hfiles] at h
    cases h
  | ok files =>
    rw [hfiles] at h
    simp only [Report.outcome_bind, hfiles, Outcome.ok_bind] at h
    obtain ⟨paths, hpaths, h⟩ := Outcome.of_bind_eq_ok h
    obtain ⟨-, -, h⟩ := Outcome.of_bind_eq_ok h
    cases h
    exact ⟨files, rfl, hpaths, rfl⟩

/-- A build whose files can be put together writes them. -/
theorem build_of_files (hfiles : (j.files t).outcome = .ok files) :
    (j.build t).tree = (writeFiles j.buildPath j.config.appendOnly t files).tree ∧
      ∀ paths, (writeFiles j.buildPath j.config.appendOnly t files).report.outcome = .ok paths →
        (j.build t).report.outcome = .ok paths := by
  unfold Job.build
  dsimp only
  rw [hfiles]
  refine ⟨rfl, ?_⟩
  intro paths hpaths
  simp only [Report.outcome_bind, hfiles, Outcome.ok_bind, hpaths]
  rfl

/-- A build whose files cannot be put together changes nothing. -/
theorem build_of_fault {fault : BuildFault} (h : (j.files t).outcome = .error fault) :
    (j.build t).tree = t := by
  unfold Job.build
  dsimp only
  rw [h]

end Job

/-! ### What the next build finds -/

/-- The text that a file is read as once a text was written into it. -/
def reread (text : String) : String := String.ofList (lineFeeds text.toList)

namespace Job

/-- The schema of the job gives names only where generated declarations take them up. -/
def GivesNames (j : Job) (t : FileTree) : Prop :=
  ∀ text, t.readText j.schemaPath = .ok text →
    SchemaLoom.GivesNames j.schemaPath.name j.config.types text

/-- A schema that is not written compiles as before. -/
theorem Compiles.again {places : Place → Prop} (h : j.Compiles t fragments)
    (hgrows : t.Grows places after)
    (hspares : ∀ place, places place → t.locate j.schemaPath ≠ .ok place) :
    j.Compiles after fragments := by
  obtain ⟨text, htext, hpublish⟩ := h
  obtain ⟨place, content, hplace, hfile, hcontent⟩ := FileTree.of_readText htext
  refine ⟨text, ?_, hpublish⟩
  have hsame := hgrows.file_of_not (fun hwritten => hspares place hwritten hplace) hfile
  rw [FileTree.readText_of_file (hgrows.locate hplace) hsame, hcontent]

/-! ### Two builds -/

/-- What is known of a build that succeeded. -/
structure Built (j : Job) (t after : FileTree) (fragments : List Fragment)
    (existing : List (String × String)) (files : List File) (written : List Path) : Prop where
  compiles : j.Compiles t fragments
  found : existingFiles t j.buildPath (j.merged fragments) = .ok existing
  assembles : (assemble fragments existing).outcome = .ok files
  isLocation : ∀ location ∈ locations fragments, IsLocation location
  renews : ∀ location ≠ j.published, Renews location fragments
  grows : t.Grows (fun place => ∃ p ∈ written, after.locate p = .ok place) after
  settled : ∀ f ∈ files, Settled j.buildPath j.config.appendOnly written t after f

/-- **A build that succeeds settles all of its files** (`Job.Built`). -/
theorem built_of_build (hproper : j.base.IsProper) (hclosed : t.IsClosed) (hgives : j.GivesNames t)
    (hbuild : (j.build t).report.outcome = .ok written) :
    ∃ fragments existing files, j.Built t (j.build t).tree fragments existing files written := by
  obtain ⟨files, hfiles, hreport, htree⟩ := of_build hbuild
  obtain ⟨fragments, existing, hcompiles, hexisting, hassemble⟩ := files_eq_ok.1 hfiles
  obtain ⟨text, htext, hpublish⟩ := hcompiles
  obtain ⟨place, content, hplace, hfile, -⟩ := FileTree.of_readText htext
  have hname : IsFileName j.schemaPath.name :=
    (hproper.join j.config.inSchema).isFileName hclosed hplace hfile
  obtain ⟨hlocations, hrenews⟩ := of_publish hname (hgives text htext) hpublish
  have hapart : Apart j.buildPath (j.build t).tree files :=
    apart_of_isLocation (nodup_locations hassemble) fun f hf =>
      hlocations f.location (of_mem_assemble hassemble hf).1
  obtain ⟨hgrows, -, hsettled⟩ := of_writeFiles htree.symm hreport hapart
  exact ⟨fragments, existing, files, ⟨text, htext, hpublish⟩, hexisting, hassemble, hlocations,
    hrenews, hgrows, hsettled⟩

namespace Built

variable {existing again : List (String × String)}

end Built

end Job

/-- A schema with one field, which is computed. -/
def computedField : String := "type Query \x7b a: Int @function(name: \"f\") \x7d"

/-- A workspace with that schema, and with what is in its build directory. -/
def workspace (built : List (Place × Entry)) : FileTree :=
  ⟨(["w"], .folder) :: (["w", "schema.graphql"], .file (.text computedField)) :: built⟩

/-- A build of that workspace. -/
def jobOf (buildDirectory : String) (appendOnly : Bool) : Job :=
  { base := ⟨["w"], false⟩, config := { buildDirectory, appendOnly } }

end Workspace

end SchemaLoom
