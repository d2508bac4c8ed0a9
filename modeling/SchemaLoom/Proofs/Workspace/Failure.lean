/-
What a build that fails leaves behind.

A build puts all files together before it writes the first one, so a schema that cannot be read
or compiled, and a file that cannot be put together, leave the tree as it is (`of_failed_build`).
Writing goes from file to file, and nothing takes back what was written before a file that cannot
be.

A tree only grows: what was made or changed up to the failure stays.  So the failed build is seen
unless each file before that one led to something, which was kept or held already the body that
is written there last (`LeavesNoTrace`), and unless a folder was made on the way to the last file
(`Blocked`).

A run is told as a relation: `Writes` for a file that can be written, `Stops` for one that
cannot, `WritesAll` for the files before it.  The condition is stated about the tree that the run
began with.  That is possible because a run without a trace leaves a tree in which paths lead
where they led (`Alike`), whatever the contents are in between.
-/
import SchemaLoom.Proofs.Workspace.Repetition

namespace SchemaLoom.Workspace

open Artifact

/-! ### Trees that show no difference -/

namespace FileTree

variable {t t' middle : FileTree}

/-- Files stay files. -/
theorem Grows.file {written : Place → Prop} (h : t.Grows written t') {place : Place}
    {content : Content} (hfile : t.at? place = some (.file content)) :
    ∃ later, t'.at? place = some (.file later) := by
  rcases h place with hsame | ⟨hnone, -⟩ | ⟨-, -, hwritten⟩
  · exact ⟨content, hsame.trans hfile⟩
  · rw [hfile] at hnone
    cases hnone
  · exact hwritten

/-- **A tree that is the same in the end was the same all along, if no file was written any
more.** -/
theorem Grows.same_before {written : Place → Prop} (h : t.Grows written middle)
    (hlater : middle.Grows (fun _ => False) t') (hsame : t.Same t') : t.Same middle := by
  intro place
  have hnot : ¬ (fun _ : Place => False) place := not_false
  rcases hlater.at?_of_not hnot with hkept | ⟨hnone, hnew⟩
  · exact hkept.symm.trans (hsame place)
  · rw [h.folder ((hsame place).symm.trans hnew)] at hnone
    cases hnone

/-- The tree `t'` has a file wherever `t` has one, and a folder wherever `t` has one. -/
def Alike (t t' : FileTree) : Prop :=
  ∀ place, t'.at? place = t.at? place ∨
    ∃ content later, t.at? place = some (.file content) ∧ t'.at? place = some (.file later)

theorem Same.alike (h : t.Same t') : t.Alike t' := fun place => Or.inl (h place)

theorem alike_put {place : Place} {content : Content} (hfile : t.at? place = some (.file content))
    (later : Content) : t.Alike (t.put place (.file later)) := by
  intro other
  by_cases hsame : other = place
  · subst hsame
    have hfree : t.at? other ≠ some .folder := by
      rw [hfile]
      exact nofun
    exact Or.inr ⟨content, later, hfile, at?_put_self _ (ne_nil_of_free hfree)⟩
  · exact Or.inl (at?_put_of_ne _ hsame)

namespace Alike

variable (h : t.Alike t')

include h

/-- Names lead to the same places. -/
theorem follow_eq (place : Place) (names : List String) :
    t'.follow place names = t.follow place names := by
  induction names generalizing place with
  | nil => rfl
  | cons name names ih =>
    rw [follow, follow]
    rcases h place with hsame | ⟨content, later, hfile, hlater⟩
    · rw [hsame]
      simp only [ih]
    · rw [hfile, hlater]

theorem locate_eq (p : Path) : t'.locate p = t.locate p := by
  rw [locate, locate, h.follow_eq]

theorem at?_eq_none_iff (place : Place) : t'.at? place = none ↔ t.at? place = none := by
  rcases h place with hsame | ⟨content, later, hfile, hlater⟩
  · rw [hsame]
  · simp [hfile, hlater]

theorem at?_eq_folder_iff (place : Place) :
    t'.at? place = some .folder ↔ t.at? place = some .folder := by
  rcases h place with hsame | ⟨content, later, hfile, hlater⟩
  · rw [hsame]
  · simp [hfile, hlater]

theorem has_eq (p : Path) : t'.has p = t.has p := by
  have hsome : ∀ place, (t'.at? place).isSome = (t.at? place).isSome := by
    intro place
    rw [Bool.eq_iff_iff, Option.isSome_iff_ne_none, Option.isSome_iff_ne_none, ne_eq, ne_eq,
      h.at?_eq_none_iff]
  rw [has, has, get?, get?, h.locate_eq]
  cases t.locate p with
  | ok place => exact congrArg Except.ok (hsome place)
  | error cause => cases cause <;> rfl

end Alike

/-! ### Missing folders

The folders that are missing on the way to a file are made first, and they stay if the file cannot
be written after all.
-/

/-- Nothing is at the end of the path `p`, since it or a folder on the way is missing. -/
def IsMissing (t : FileTree) (p : Path) : Prop :=
  t.locate p = .error .notFound ∨ ∃ place, t.locate p = .ok place ∧ t.at? place = none

/-- A file can be written at the end of the path `p` without a folder being made. -/
def Accepts (t : FileTree) (p : Path) : Prop :=
  ∃ place, t.locate p = .ok place ∧ t.at? place ≠ some .folder

theorem Alike.isMissing_iff (h : t.Alike t') (p : Path) : t'.IsMissing p ↔ t.IsMissing p := by
  simp only [IsMissing, h.locate_eq, h.at?_eq_none_iff]

theorem Alike.accepts_iff (h : t.Alike t') (p : Path) : t'.Accepts p ↔ t.Accepts p := by
  simp only [Accepts, ne_eq, h.locate_eq, h.at?_eq_folder_iff]

/-- If a folder on the way is missing, then so is what the path without the last name leads to. -/
theorem isMissing_parent {p : Path} (h : t.locate p = .error .notFound) :
    p.names ≠ [] ∧ t.IsMissing p.parent := by
  unfold locate at h
  split at h
  · cases h
  next hwhole =>
    split at h
    · cases h
    next hshort =>
      have hnonempty : p.names ≠ [] := by
        intro hempty
        rw [hempty] at h
        cases h
      have hparent : t.locate p.parent = t.follow [] p.names.dropLast := by
        have hbroken : ¬ p.parent.isBroken := by
          simp only [Path.isBroken, List.any_eq_true, not_exists] at hwhole ⊢
          exact fun name hname => hwhole name ⟨List.dropLast_subset _ hname.1, hname.2⟩
        rw [locate, if_neg hbroken,
          if_neg (Nat.not_lt.2 (Nat.le_trans (size_parent_le p) (Nat.not_lt.1 hshort)))]
        rfl
      refine ⟨hnonempty, ?_⟩
      rw [← List.dropLast_concat_getLast hnonempty, follow_append] at h
      rw [IsMissing, hparent]
      cases haround : t.follow [] p.names.dropLast with
      | error cause =>
        rw [haround] at h
        exact Or.inl h
      | ok place =>
        rw [haround, Outcome.ok_bind, follow] at h
        refine Or.inr ⟨place, rfl, ?_⟩
        split at h
        next hnone => exact hnone
        · cases h
        · split at h <;> cases h

/-- **Making a missing folder makes some folder, even if it fails in the end.** -/
theorem exists_new_folder {p : Path} (h : t.IsMissing p) :
    ∃ place, t.at? place = none ∧ (t.ensureFolders p).1.at? place = some .folder := by
  fun_induction ensureFolders t p with
  | case1 p hmake hempty =>
    rcases h with hlocate | ⟨place, hplace, hnone⟩
    · exact absurd hempty (isMissing_parent hlocate).1
    · simp [makeFolder, hplace, hnone] at hmake
  | case2 p hmake _ middle fault haround ih =>
    rw [haround] at ih
    rcases h with hlocate | ⟨place, hplace, hnone⟩
    · exact ih (isMissing_parent hlocate).2
    · simp [makeFolder, hplace, hnone] at hmake
  | case3 p hmake _ middle haround ih =>
    rw [haround] at ih
    rcases h with hlocate | ⟨place, hplace, hnone⟩
    · obtain ⟨place, hnone, hnew⟩ := ih (isMissing_parent hlocate).2
      exact ⟨place, hnone, (grows_ensureFolder middle p).folder hnew⟩
    · simp [makeFolder, hplace, hnone] at hmake
  | case4 p hmake =>
    rcases h with hlocate | ⟨place, hplace, hnone⟩
    · exact absurd (by rw [makeFolder, hlocate]; rfl) hmake
    · have hmade : t.makeFolder p = .ok (t.put place .folder) := by
        simp [makeFolder, hplace, hnone]
      have hfree : t.at? place ≠ some .folder := by simp [hnone]
      refine ⟨place, hnone, ?_⟩
      rw [ensureFolder, hmade]
      exact at?_put_self _ (ne_nil_of_free hfree)

/-- Making a folder where something is, or cannot be, makes none. -/
theorem ensureFolders_of_not_missing {p : Path} (h : ¬ t.IsMissing p) :
    (t.ensureFolders p).1 = t := by
  obtain ⟨cause, hmake, hother⟩ : ∃ cause, t.makeFolder p = .error cause ∧ cause ≠ .notFound := by
    unfold makeFolder
    cases hlocate : t.locate p with
    | error cause => exact ⟨cause, rfl, fun hcause => h (Or.inl (hcause ▸ hlocate))⟩
    | ok place =>
      rw [Outcome.ok_bind]
      split
      · exact ⟨.exists, rfl, nofun⟩
      next hnone => exact absurd (Or.inr ⟨place, hlocate, hnone⟩) h
  have hensure : (t.ensureFolder p).1 = t := by
    rw [ensureFolder, hmake]
    dsimp only
    split <;> rfl
  rw [ensureFolders, hmake]
  cases cause with
  | notFound => exact absurd rfl hother
  | «exists» | notAFolder | isAFolder | nameTooLong | brokenName => exact hensure

/-! ### Files that cannot be written -/

/-- A file that cannot be written is not, but folders may have been made on the way to it. -/
theorem grows_of_failed_store {p : Path} {content : Content} {fault : FileFault}
    (h : t.store p content = (t', some fault)) : t.Grows (fun _ => False) t' := by
  have hfolders := grows_ensureFolders t p.parent
  unfold store at h
  split at h
  next hensure =>
    rw [hensure] at hfolders
    cases h
    exact hfolders
  next hensure =>
    rw [hensure] at hfolders
    split at h
    · cases h
    · cases h
      exact hfolders

/-- **A file that cannot be written leaves the tree the same unless a folder around it was missing
(`IsMissing`).** -/
theorem same_failed_store_iff {p : Path} {content : Content} {fault : FileFault}
    (h : t.store p content = (t', some fault)) :
    t.Same t' ↔ ¬ t.IsMissing p.parent := by
  constructor
  · intro hsame hmissing
    -- A folder was made on the way, and it is still there.
    obtain ⟨place, hnone, hnew⟩ := exists_new_folder hmissing
    have hthere : t'.at? place = some .folder := by
      unfold store at h
      split at h
      next hensure =>
        cases h
        rwa [hensure] at hnew
      next hensure =>
        rw [hensure] at hnew
        split at h
        · cases h
        · cases h
          exact hnew
    rw [hsame place, hnone] at hthere
    cases hthere
  · intro haround
    have hkept := ensureFolders_of_not_missing haround
    have htree : t' = t := by
      unfold store at h
      split at h
      next hensure =>
        cases h
        rwa [hensure] at hkept
      next hensure =>
        rw [hensure] at hkept
        split at h
        · cases h
        · cases h
          exact hkept
    exact htree ▸ fun _ => rfl

/-- Where nothing can be written and no folder is made, storing fails and changes nothing. -/
theorem store_of_not_accepts {p : Path} (haround : ¬ t.IsMissing p.parent) (hnot : ¬ t.Accepts p)
    (content : Content) : ∃ fault, t.store p content = (t, some fault) := by
  have hkept := ensureFolders_of_not_missing haround
  unfold store
  split
  next middle fault hensure =>
    rw [hensure] at hkept
    cases hkept
    exact ⟨fault, rfl⟩
  next middle hensure =>
    rw [hensure] at hkept
    cases hkept
    split
    next after hwrite =>
      unfold write at hwrite
      obtain ⟨place, hplace, hwrite⟩ := Outcome.of_bind_eq_ok hwrite
      split at hwrite
      · cases hwrite
      next hfree => exact absurd ⟨place, hplace, hfree⟩ hnot
    next cause _ => exact ⟨⟨cause, p⟩, rfl⟩

end FileTree

/-! ### A run of writing, file by file -/

variable {folder : Path} {appendOnly : Bool} {t t' middle : FileTree} {f : File}
  {files rest : List File}

/-- What a tree becomes by one file, if that can be written. -/
inductive Writes (folder : Path) (appendOnly : Bool) (t : FileTree) (f : File) : FileTree → Prop
  /-- The file is not to be written, since one exists. -/
  | kept (hkept : isKept t folder appendOnly f = .ok true) : Writes folder appendOnly t f t
  | stored {t' : FileTree} (hkept : isKept t folder appendOnly f = .ok false)
      (hstore : t.store (folder.join f.location) (.text f.body) = (t', none)) :
      Writes folder appendOnly t f t'

/-- What a tree becomes by one file that cannot be written. -/
inductive Stops (folder : Path) (appendOnly : Bool) (t : FileTree) (f : File) : FileTree → Prop
  /-- It cannot be told if there is a file already. -/
  | unseen {fault : FileFault} (hkept : isKept t folder appendOnly f = .error fault) :
      Stops folder appendOnly t f t
  | unwritten {t' : FileTree} {fault : FileFault} (hkept : isKept t folder appendOnly f = .ok false)
      (hstore : t.store (folder.join f.location) (.text f.body) = (t', some fault)) :
      Stops folder appendOnly t f t'

/-- What a tree becomes by files all of which can be written. -/
inductive WritesAll (folder : Path) (appendOnly : Bool) :
    FileTree → List File → FileTree → Prop
  | nil (t : FileTree) : WritesAll folder appendOnly t [] t
  | cons {t middle t' : FileTree} {f : File} {rest : List File}
      (hfirst : Writes folder appendOnly t f middle)
      (hrest : WritesAll folder appendOnly middle rest t') :
      WritesAll folder appendOnly t (f :: rest) t'

theorem tree_of_writesAll {before : List File} (h : WritesAll folder appendOnly t before middle)
    (rest : List File) :
    (writeFiles folder appendOnly t (before ++ rest)).tree
      = (writeFiles folder appendOnly middle rest).tree := by
  induction h with
  | nil t => rfl
  | cons hfirst _ ih =>
    rw [← ih, List.cons_append, writeFiles]
    cases hfirst with
    | kept hkept => rw [hkept]
    | stored hkept hstore =>
      rw [hkept]
      dsimp only
      rw [hstore]

theorem tree_of_stops (h : Stops folder appendOnly t f t') (rest : List File) :
    (writeFiles folder appendOnly t (f :: rest)).tree = t' := by
  rw [writeFiles]
  cases h with
  | unseen hkept => rw [hkept]
  | unwritten hkept hstore =>
    rw [hkept]
    dsimp only
    rw [hstore]

/-- **A run of writing that fails has written the files before some file (`WritesAll`), and stopped
there (`Stops`).** -/
theorem exists_stop {fault : BuildFault}
    (h : (writeFiles folder appendOnly t files).report.outcome = .error fault) :
    ∃ before f rest middle, files = before ++ f :: rest ∧
      WritesAll folder appendOnly t before middle ∧
      Stops folder appendOnly middle f (writeFiles folder appendOnly t files).tree := by
  induction files generalizing t with
  | nil => cases h
  | cons f rest ih =>
    -- Behind a file that was dealt with, the run stops where the run of the others does.
    have hgo : ∀ {next : FileTree}, Writes folder appendOnly t f next →
        (writeFiles folder appendOnly next rest).report.outcome = .error fault →
        ∃ before g others middle, f :: rest = before ++ g :: others ∧
          WritesAll folder appendOnly t before middle ∧
          Stops folder appendOnly middle g (writeFiles folder appendOnly t (f :: rest)).tree := by
      intro next hfirst hfails
      obtain ⟨before, g, others, middle, hfiles, hbefore, hstop⟩ := ih hfails
      have htree := tree_of_writesAll (.cons hfirst (.nil next)) rest
      refine ⟨f :: before, g, others, middle, by rw [hfiles]; rfl, .cons hfirst hbefore, ?_⟩
      rw [← List.singleton_append, htree]
      exact hstop
    cases hkept : isKept t folder appendOnly f with
    | error fault =>
      have hstop := Stops.unseen hkept
      exact ⟨[], f, rest, t, rfl, .nil t, by rwa [tree_of_stops hstop]⟩
    | ok isKept =>
      cases isKept with
      | true =>
        refine hgo (.kept hkept) ?_
        rw [writeFiles, hkept] at h
        exact h
      | false =>
        rcases hstore : t.store (folder.join f.location) (.text f.body) with ⟨next, _ | fault⟩
        · refine hgo (.stored hkept hstore) ?_
          rw [writeFiles, hkept] at h
          dsimp only at h
          rw [hstore] at h
          dsimp only at h
          simp only [Report.outcome_bind] at h
          cases hrest : (writeFiles folder appendOnly next rest).report.outcome with
          | ok paths =>
            rw [hrest] at h
            cases h
          | error other =>
            rw [hrest] at h
            exact h
        · have hstop := Stops.unwritten hkept hstore
          exact ⟨[], f, rest, t, rfl, .nil t, by rwa [tree_of_stops hstop]⟩

theorem Writes.grows (h : Writes folder appendOnly t f t') : t.Grows (fun _ => True) t' := by
  cases h with
  | kept _ => exact FileTree.Grows.refl _ t
  | stored _ hstore =>
    obtain ⟨_, -, -, hgrows⟩ := FileTree.of_store hstore
    exact hgrows.weaken fun _ _ => trivial

theorem WritesAll.grows (h : WritesAll folder appendOnly t files t') :
    t.Grows (fun _ => True) t' := by
  induction h with
  | nil t => exact FileTree.Grows.refl _ t
  | cons hfirst _ ih => exact hfirst.grows.trans ih

theorem Stops.grows (h : Stops folder appendOnly t f t') : t.Grows (fun _ => False) t' := by
  cases h with
  | unseen _ => exact FileTree.Grows.refl _ t
  | unwritten _ hstore => exact FileTree.grows_of_failed_store hstore

/-! ### Runs that leave no trace

A file may be written several times in a run, so that a body is written over which a later file
restores.  What counts is the last body that is brought to a place (`lastBody`).
-/

/-- The file `f` leads to something, and to a file if it is going to be written. -/
def Finds (folder : Path) (appendOnly : Bool) (t : FileTree) (f : File) : Prop :=
  ∃ place e, t.locate (folder.join f.location) = .ok place ∧ t.at? place = some e ∧
    ((appendOnly || !f.replaceable) = false → ∃ content, e = .file content)

theorem Finds.later {written : Place → Prop} (h : Finds folder appendOnly t f)
    (hgrows : t.Grows written t') : Finds folder appendOnly t' f := by
  obtain ⟨place, e, hplace, hthere, hfile⟩ := h
  cases e with
  | folder => exact ⟨place, .folder, hgrows.locate hplace, hgrows.folder hthere, hfile⟩
  | file content =>
    obtain ⟨later, hlater⟩ := hgrows.file hthere
    exact ⟨place, .file later, hgrows.locate hplace, hlater, fun _ => ⟨later, rfl⟩⟩

theorem Finds.of_same (h : Finds folder appendOnly t' f) (hsame : t.Same t') :
    Finds folder appendOnly t f := by
  obtain ⟨place, e, hplace, hthere, hfile⟩ := h
  exact ⟨place, e, hsame.alike.locate_eq _ ▸ hplace, hsame place ▸ hthere, hfile⟩

/-- What was written or kept is found. -/
theorem Writes.finds (h : Writes folder appendOnly t f t') : Finds folder appendOnly t' f := by
  cases h with
  | kept hkept =>
    obtain ⟨found, hfound, hkeep⟩ := Outcome.of_map_eq_ok hkept
    rw [Bool.and_eq_true] at hkeep
    rw [hkeep.1] at hfound
    obtain ⟨place, e, hplace, hthere⟩ := of_has_eq_ok hfound
    refine ⟨place, e, hplace, hthere, fun hwritten => ?_⟩
    rw [hkeep.2] at hwritten
    cases hwritten
  | stored _ hstore =>
    obtain ⟨place, hplace, hbody, -⟩ := FileTree.of_store hstore
    exact ⟨place, _, hplace, hbody, fun _ => ⟨_, rfl⟩⟩

theorem WritesAll.finds (h : WritesAll folder appendOnly t files t') :
    ∀ f ∈ files, Finds folder appendOnly t' f := by
  induction h with
  | nil t =>
    intro f hf
    cases hf
  | cons hfirst hrest ih =>
    intro g hg
    rcases List.mem_cons.1 hg with rfl | hg
    · exact hfirst.finds.later hrest.grows
    · exact ih g hg

/-- The last body that files bring to a place, where all of them lead to something. -/
def lastBody (folder : Path) (appendOnly : Bool) (t : FileTree) (place : Place) :
    List File → Option String
  | [] => none
  | f :: rest =>
    (lastBody folder appendOnly t place rest).or
      (if (appendOnly || !f.replaceable) = false ∧ t.locate (folder.join f.location) = .ok place
        then some f.body else none)

theorem lastBody_of_alike (h : t.Alike t') (place : Place) (files : List File) :
    lastBody folder appendOnly t' place files = lastBody folder appendOnly t place files := by
  induction files with
  | nil => rfl
  | cons f rest ih => rw [lastBody, lastBody, ih, h.locate_eq]

theorem exists_lastBody (hf : f ∈ files) (hwritten : (appendOnly || !f.replaceable) = false)
    {place : Place} (hplace : t.locate (folder.join f.location) = .ok place) :
    ∃ body, lastBody folder appendOnly t place files = some body := by
  induction files with
  | nil => cases hf
  | cons g rest ih =>
    rw [lastBody]
    rcases List.mem_cons.1 hf with rfl | hf
    · rw [if_pos ⟨hwritten, hplace⟩]
      cases lastBody folder appendOnly t place rest with
      | none => exact ⟨f.body, rfl⟩
      | some body => exact ⟨body, rfl⟩
    · obtain ⟨body, hbody⟩ := ih hf
      rw [hbody]
      exact ⟨body, rfl⟩

/-- **If every file leads to something, then writing them succeeds, and what is at a place in the
end is the last body brought there, or what was there.** -/
theorem exists_writesAll (h : ∀ f ∈ files, Finds folder appendOnly t f) :
    ∃ t', WritesAll folder appendOnly t files t' ∧ ∀ place, t'.at? place =
      ((lastBody folder appendOnly t place files).map fun body => Entry.file (.text body)).or
        (t.at? place) := by
  induction files generalizing t with
  | nil => exact ⟨t, .nil t, fun place => rfl⟩
  | cons f rest ih =>
    have hrest : ∀ g ∈ rest, Finds folder appendOnly t g :=
      fun g hg => h g (List.mem_cons_of_mem f hg)
    obtain ⟨place, e, hplace, hthere, hfile⟩ := h f List.mem_cons_self
    have hkept : isKept t folder appendOnly f = .ok (appendOnly || !f.replaceable) :=
      isKept_of_there hplace hthere
    cases hkeep : appendOnly || !f.replaceable with
    | true =>
      rw [hkeep] at hkept
      obtain ⟨t', hwrites, hplaces⟩ := ih hrest
      refine ⟨t', .cons (.kept hkept) hwrites, fun other => ?_⟩
      rw [hplaces, lastBody, hkeep]
      simp
    | false =>
      rw [hkeep] at hkept
      obtain ⟨content, rfl⟩ := hfile hkeep
      have hfree : t.at? place ≠ some .folder := by
        rw [hthere]
        exact nofun
      have hstore := FileTree.store_of_free hplace hfree (.text f.body)
      have halike := FileTree.alike_put hthere (.text f.body)
      have hput : t.Grows (· = place) (t.put place (.file (.text f.body))) :=
        FileTree.grows_put (FileTree.ne_nil_of_free hfree) (Or.inr ⟨hfree, _, rfl⟩)
      -- The induction is over the files with the tree kept general: the rest starts from the tree
      -- that holds the new body.
      obtain ⟨t', hwrites, hplaces⟩ := ih fun g hg => (hrest g hg).later hput
      refine ⟨t', .cons (.stored hkept hstore) hwrites, fun other => ?_⟩
      rw [hplaces, lastBody_of_alike halike, lastBody, hkeep, hplace]
      by_cases hsame : other = place
      · subst hsame
        rw [FileTree.at?_put_self _ (FileTree.ne_nil_of_free hfree)]
        cases lastBody folder appendOnly t other rest <;> simp
      · have hother : ¬ (Except.ok place : Except FileCause Place) = .ok other :=
          fun heq => hsame (Except.ok.inj heq).symm
        rw [FileTree.at?_put_of_ne _ hsame]
        simp [hother]

/-- The files find all that they are to leave behind. -/
structure LeavesNoTrace (folder : Path) (appendOnly : Bool) (t : FileTree) (files : List File) :
    Prop where
  /-- Every file leads to something. -/
  there : ∀ f ∈ files, ∃ place e,
    t.locate (folder.join f.location) = .ok place ∧ t.at? place = some e
  /-- Where bodies are written, the last one is there already. -/
  held : ∀ place body, lastBody folder appendOnly t place files = some body →
    t.at? place = some (.file (.text body))

theorem LeavesNoTrace.finds (h : LeavesNoTrace folder appendOnly t files) :
    ∀ f ∈ files, Finds folder appendOnly t f := by
  intro f hf
  obtain ⟨place, e, hplace, hthere⟩ := h.there f hf
  refine ⟨place, e, hplace, hthere, fun hwritten => ?_⟩
  obtain ⟨body, hbody⟩ := exists_lastBody hf hwritten hplace
  rw [h.held place body hbody] at hthere
  cases hthere
  exact ⟨_, rfl⟩

/-- **A run of writing leaves the tree the same just when it finds all that it leaves behind
(`LeavesNoTrace`).** -/
theorem WritesAll.same_iff (h : WritesAll folder appendOnly t files t') :
    t.Same t' ↔ LeavesNoTrace folder appendOnly t files := by
  have htree : ∀ {after : FileTree}, WritesAll folder appendOnly t files after → after = t' :=
    fun hother => (tree_of_writesAll hother []).symm.trans (tree_of_writesAll h [])
  constructor
  · intro hsame
    have hfinds : ∀ f ∈ files, Finds folder appendOnly t f :=
      fun f hf => (h.finds f hf).of_same hsame
    obtain ⟨after, hafter, hplaces⟩ := exists_writesAll hfinds
    obtain rfl := htree hafter
    refine ⟨fun f hf => ?_, fun place body hbody => ?_⟩
    · obtain ⟨place, e, hplace, hthere, -⟩ := hfinds f hf
      exact ⟨place, e, hplace, hthere⟩
    · rw [← hsame place, hplaces, hbody]
      rfl
  · intro htrace place
    obtain ⟨after, hafter, hplaces⟩ := exists_writesAll htrace.finds
    obtain rfl := htree hafter
    rw [hplaces]
    cases hbody : lastBody folder appendOnly t place files with
    | none => rfl
    | some body => exact (htrace.held place body hbody).symm

/-- The file `f` cannot be written, and no folder is made on the way to it. -/
def Blocked (folder : Path) (appendOnly : Bool) (t : FileTree) (f : File) : Prop :=
  (∃ fault, isKept t folder appendOnly f = .error fault) ∨
    isKept t folder appendOnly f = .ok false ∧
      ¬ t.IsMissing (folder.join f.location).parent ∧ ¬ t.Accepts (folder.join f.location)

theorem blocked_iff_of_alike (h : t.Alike t') :
    Blocked folder appendOnly t' f ↔ Blocked folder appendOnly t f := by
  simp only [Blocked, isKept, h.has_eq, h.isMissing_iff, h.accepts_iff]

theorem Blocked.stops (h : Blocked folder appendOnly t f) : Stops folder appendOnly t f t := by
  rcases h with ⟨fault, hkept⟩ | ⟨hkept, haround, hnot⟩
  · exact .unseen hkept
  · obtain ⟨fault, hstore⟩ := FileTree.store_of_not_accepts haround hnot (.text f.body)
    exact .unwritten hkept hstore

/-- Where a run stops, the tree is left the same just when no folder was made. -/
theorem Stops.same_iff (h : Stops folder appendOnly t f t') :
    t.Same t' ↔ Blocked folder appendOnly t f := by
  cases h with
  | unseen hkept => exact ⟨fun _ => Or.inl ⟨_, hkept⟩, fun _ _ => rfl⟩
  | unwritten hkept hstore =>
    rw [FileTree.same_failed_store_iff hstore]
    constructor
    · refine fun haround => Or.inr ⟨hkept, haround, ?_⟩
      rintro ⟨place, hplace, hfree⟩
      rw [FileTree.store_of_free hplace hfree] at hstore
      cases hstore
    · rintro (⟨fault, hfault⟩ | ⟨-, haround, -⟩)
      · rw [hkept] at hfault
        cases hfault
      · exact haround

/-- **A run of writing that fails leaves the tree the same just when the files before the one where
it stopped left no trace, and neither did that one.** -/
theorem same_failed_run_iff {fault : BuildFault}
    (h : (writeFiles folder appendOnly t files).report.outcome = .error fault) :
    t.Same (writeFiles folder appendOnly t files).tree ↔
      ∃ before f rest, files = before ++ f :: rest ∧
        LeavesNoTrace folder appendOnly t before ∧ Blocked folder appendOnly t f := by
  constructor
  · intro hsame
    obtain ⟨before, f, rest, middle, hfiles, hbefore, hstop⟩ := exists_stop h
    have hmiddle := hbefore.grows.same_before hstop.grows hsame
    have hlater : middle.Same (writeFiles folder appendOnly t files).tree :=
      fun place => (hsame place).trans (hmiddle place).symm
    exact ⟨before, f, rest, hfiles, hbefore.same_iff.1 hmiddle,
      (blocked_iff_of_alike hmiddle.alike).1 (hstop.same_iff.1 hlater)⟩
  · rintro ⟨before, f, rest, rfl, htrace, hblocked⟩
    obtain ⟨middle, hbefore, -⟩ := exists_writesAll htrace.finds
    have hmiddle := hbefore.same_iff.2 htrace
    rw [tree_of_writesAll hbefore,
      tree_of_stops ((blocked_iff_of_alike hmiddle.alike).2 hblocked).stops]
    exact hmiddle

/-! ### Builds -/

namespace Job

variable {j : Job}

/-- A build whose files can be put together fails only in writing them. -/
theorem of_failed_build {fault : BuildFault} (h : (j.build t).report.outcome = .error fault)
    (hfiles : (j.files t).outcome = .ok files) :
    (writeFiles j.buildPath j.config.appendOnly t files).report.outcome = .error fault := by
  unfold Job.build at h
  dsimp only at h
  rw [hfiles] at h
  simp only [Report.outcome_bind, hfiles, Outcome.ok_bind] at h
  cases hwritten : (writeFiles j.buildPath j.config.appendOnly t files).report.outcome with
  | error other =>
    rw [hwritten] at h
    exact h
  | ok paths =>
    rw [hwritten] at h
    cases h

/-- **A build that fails before its files are put together leaves the tree as it is. One that fails
in writing them does so just when it stops at a file for which no folder was made (`Blocked`), and
the files before that one left no trace (`LeavesNoTrace`).** -/
theorem failed_build_same_iff {fault : BuildFault}
    (h : (j.build t).report.outcome = .error fault) :
    ((∀ files, (j.files t).outcome ≠ .ok files) → (j.build t).tree = t) ∧
      ∀ files, (j.files t).outcome = .ok files →
        (t.Same (j.build t).tree ↔ ∃ before f rest, files = before ++ f :: rest ∧
          LeavesNoTrace j.buildPath j.config.appendOnly t before ∧
          Blocked j.buildPath j.config.appendOnly t f) := by
  constructor
  · intro hnone
    cases hfiles : (j.files t).outcome with
    | error other => exact build_of_fault hfiles
    | ok files => exact absurd hfiles (hnone files)
  · intro files hfiles
    rw [(build_of_files hfiles).1]
    exact same_failed_run_iff (of_failed_build h hfiles)

end Job

/-- What stands in the way of a build: a file, where the build makes a folder. -/
def obstructedFolder : List (Place × Entry) :=
  [(["w", "build"], .folder), (["w", "build", "resources"], .file (.text "x"))]

/-- The path of the file that a build could not write because there is a file where its folder would
be. -/
def obstructedPath? : Except BuildFault (List Path) → Option Path
  | .error (.unwritten path fault) =>
    if fault = ⟨.notAFolder, path.parent⟩ then some path else none
  | _ => none

theorem of_obstructedPath? {outcome : Except BuildFault (List Path)} {path : Path}
    (h : obstructedPath? outcome = some path) :
    outcome = .error (.unwritten path ⟨.notAFolder, path.parent⟩) := by
  unfold obstructedPath? at h
  split at h
  next other fault =>
    split at h
    next hfault =>
      cases h
      rw [hfault]
    · cases h
  · cases h

/-- A build that meets a file where it makes a folder fails, but the schema that it published before
is there and was not. -/
theorem obstructed_build_not_same :
    let j := jobOf "build" false
    let t := workspace obstructedFolder
    let schema := ["w", "build", "schema", "schema.graphql"]
    ∃ files path, (j.files t).outcome = .ok files ∧
      (j.build t).report.outcome = .error (.unwritten path ⟨.notAFolder, path.parent⟩) ∧
      t.at? schema = none ∧ (j.build t).tree.at? schema ≠ none ∧
      ¬ ∃ before f rest, files = before ++ f :: rest ∧
        LeavesNoTrace j.buildPath j.config.appendOnly t before ∧
        Blocked j.buildPath j.config.appendOnly t f := by
  intro j t schema
  have hrun : Outcome.Holds (j.files t).outcome (fun _ => True) ∧
      (obstructedPath? (j.build t).report.outcome).isSome = true ∧
      t.at? schema = none ∧ (j.build t).tree.at? schema ≠ none := by
    decide +kernel
  obtain ⟨hfiles, hstops, hbefore, hafter⟩ := hrun
  obtain ⟨files, hput, -⟩ := hfiles
  obtain ⟨path, hpath⟩ := Option.isSome_iff_exists.1 hstops
  have hfails := of_obstructedPath? hpath
  refine ⟨files, path, hput, hfails, hbefore, hafter, ?_⟩
  rw [← (Job.failed_build_same_iff hfails).2 files hput]
  intro hsame
  rw [hsame schema] at hafter
  exact hafter hbefore

end SchemaLoom.Workspace
