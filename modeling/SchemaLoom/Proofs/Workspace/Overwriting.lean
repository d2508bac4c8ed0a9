/-
Which files a run of writing changes.

A run looks at a path before it writes there, and so the only files that it changes are those
that may be replaced, and those at the end of a path that led nowhere when the run began
(`grows_where_mayWrite`).  A path that leads nowhere can lead to a file later only if it leads
back from a folder that was missing and that the run makes: then what the run takes for new may
be a file that was there all along.

Where no path does so, folders are made at the beginnings of paths only (`prefix_of_new_folder`).
What a run finds at a path is then what was there when it began, whatever it wrote in between,
and this is the invariant that carries the files from first to last (`written_of_writeFiles`).

For that the files must not stand in each other's way: none has the place of an earlier one, or
of a folder around it (`Spread`).
-/
import SchemaLoom.Proofs.Workspace.Failure

namespace SchemaLoom.Workspace

open Artifact

/-! ### Where paths lead

A path that leads to a place leads to the one that it collapses to (`locate_eq_collapsed`).
-/

namespace Path

theorem collapse_append (place names more : List String) :
    collapse place (names ++ more) = collapse (collapse place names) more := by
  induction names generalizing place with
  | nil => rfl
  | cons name names ih =>
    rw [List.cons_append, collapse, collapse]
    exact ih _

theorem collapse_concat {name : String} (h : name ≠ upward) (place names : List String) :
    collapse place (names ++ [name]) = collapse place names ++ [name] := by
  rw [collapse_append, collapse, if_neg h, collapse]

theorem collapse_of_not_upward {place names : List String} (h : upward ∉ names) :
    collapse place names = place ++ names := by
  induction names generalizing place with
  | nil => simp [collapse]
  | cons name names ih =>
    rw [List.mem_cons, not_or] at h
    rw [collapse, if_neg (Ne.symm h.1), ih h.2]
    simp

end Path

namespace FileTree

variable {t t' : FileTree} {p : Path} {place : Place}

/-- Names that lead somewhere lead to the place that is left of them when nothing leads back. -/
theorem follow_eq_collapse {found : Place} {names : List String}
    (h : t.follow place names = .ok found) : found = Path.collapse place names := by
  induction names generalizing place with
  | nil =>
    cases h
    rfl
  | cons name names ih =>
    rw [follow] at h
    split at h
    · cases h
    · cases h
    · split at h
      · cases h
      · exact ih h

theorem locate_eq_collapsed (h : t.locate p = .ok place) : place = p.collapsed.names :=
  follow_eq_collapse (locate_eq_ok.1 h).2.2

/-! ### Folders on the way -/

/-- A path that leads back only where something is leads somewhere, or it does not end by leading
back and neither does the path around it. -/
theorem BacksWithin.parent (h : t.BacksWithin p) :
    (∃ found, t.follow [] p.names = .ok found) ∨
      t.BacksWithin p.parent ∧ p.parent.collapsed.names <+: p.collapsed.names := by
  obtain ⟨front, back, found, hnames, hfront, hupward⟩ := h
  by_cases hend : back = []
  · subst hend
    rw [List.append_nil] at hnames
    exact Or.inl ⟨found, hnames ▸ hfront⟩
  · obtain ⟨init, last, rfl⟩ : ∃ init last, back = init ++ [last] :=
      ⟨back.dropLast, back.getLast hend, (List.dropLast_concat_getLast hend).symm⟩
    rw [List.mem_append, not_or, List.mem_singleton] at hupward
    have hparent : p.parent.names = front ++ init := by
      rw [Path.parent, hnames, ← List.append_assoc, List.dropLast_concat]
    refine Or.inr ⟨⟨front, init, found, hparent, hfront, hupward.1⟩, [last], ?_⟩
    rw [Path.collapsed, Path.collapsed, hparent, hnames, ← List.append_assoc,
      Path.collapse_concat (Ne.symm hupward.2)]

theorem new_of_ensureFolder (hnone : t.at? place = none)
    (hnew : (t.ensureFolder p).1.at? place ≠ none) : place = p.collapsed.names := by
  unfold ensureFolder at hnew
  split at hnew
  next made hmade =>
    obtain ⟨found, hfound, -, rfl⟩ := of_makeFolder hmade
    by_cases hsame : place = found
    · exact hsame.trans (locate_eq_collapsed hfound)
    · exact absurd ((at?_put_of_ne _ hsame).trans hnone) hnew
  · split at hnew
    · exact absurd hnone hnew
    · exact absurd hnone hnew

/-- Names that lead somewhere do not miss a folder on the way. -/
theorem locate_ne_notFound {found : Place} (h : t.follow [] p.names = .ok found) :
    t.locate p ≠ .error .notFound := by
  intro hmissing
  unfold locate at hmissing
  split at hmissing
  · cases hmissing
  · split at hmissing
    · cases hmissing
    · rw [h] at hmissing
      cases hmissing

theorem locate_of_makeFolder (h : t.makeFolder p = .error .notFound) :
    t.locate p = .error .notFound := by
  unfold makeFolder at h
  cases hplace : t.locate p with
  | error cause =>
    rw [hplace] at h
    cases h
    rfl
  | ok place =>
    rw [hplace, Outcome.ok_bind] at h
    split at h <;> cases h

/-- **Folders are made at the beginnings of a path only, unless it leads back from where nothing
was.** -/
theorem prefix_of_new_folder (hback : t.BacksWithin p) (hnone : t.at? place = none)
    (hnew : (t.ensureFolders p).1.at? place ≠ none) : place <+: p.collapsed.names := by
  fun_induction ensureFolders t p with
  | case1 p _ _ => exact (new_of_ensureFolder hnone hnew) ▸ List.prefix_rfl
  | case2 p hmake _ middle _ haround ih =>
    rw [haround] at ih
    rcases hback.parent with ⟨found, hfound⟩ | ⟨hparent, hinitial⟩
    · exact absurd (locate_of_makeFolder hmake) (locate_ne_notFound hfound)
    · exact (ih hparent hnew).trans hinitial
  | case3 p hmake _ middle haround ih =>
    rw [haround] at ih
    rcases hback.parent with ⟨found, hfound⟩ | ⟨hparent, hinitial⟩
    · exact absurd (locate_of_makeFolder hmake) (locate_ne_notFound hfound)
    · by_cases hmiddle : middle.at? place = none
      · exact (new_of_ensureFolder hmiddle hnew) ▸ List.prefix_rfl
      · exact (ih hparent hmiddle).trans hinitial
  | case4 p _ => exact (new_of_ensureFolder hnone hnew) ▸ List.prefix_rfl

/-- What a tree becomes when a file is stored: folders are made, and then the file is written or
not. -/
theorem store_cases (t : FileTree) (p : Path) (content : Content) :
    (t.store p content).1 = (t.ensureFolders p.parent).1 ∨
      ∃ found, (t.ensureFolders p.parent).1.locate p = .ok found ∧
        (t.store p content).1 = (t.ensureFolders p.parent).1.put found (.file content) := by
  unfold store
  rcases t.ensureFolders p.parent with ⟨middle, _ | fault⟩
  · dsimp only
    split
    next after hwrite =>
      unfold write at hwrite
      obtain ⟨found, hfound, hwrite⟩ := Outcome.of_bind_eq_ok hwrite
      split at hwrite
      · cases hwrite
      · cases hwrite
        exact Or.inr ⟨found, hfound, rfl⟩
    · exact Or.inl rfl
  · exact Or.inl rfl

/-- Around the end of a path that leads somewhere, nothing is missing. -/
theorem not_isMissing_parent {found : Place} (h : t.follow [] p.names = .ok found) :
    ¬ t.IsMissing p.parent := by
  obtain ⟨around, haround, hfolder⟩ :
      ∃ around, t.follow [] p.parent.names = .ok around ∧ t.at? around = some .folder := by
    by_cases hroot : p.names = []
    · refine ⟨[], ?_, rfl⟩
      rw [Path.parent, hroot]
      rfl
    · rw [← List.dropLast_concat_getLast hroot] at h
      obtain ⟨around, haround, hfolder, -⟩ := follow_concat_eq_ok h
      exact ⟨around, haround, hfolder⟩
  rintro (hmissing | ⟨place, hplace, hnone⟩)
  · exact locate_ne_notFound haround hmissing
  · rw [(locate_eq_ok.1 hplace).2.2] at haround
    cases haround
    rw [hnone] at hfolder
    cases hfolder

/-- **Storing a file makes something at the beginnings of its path only, unless that leads back from
where nothing was.** -/
theorem prefix_of_new_of_store (hback : t.BacksWithin p) {content : Content}
    (hnone : t.at? place = none) (hnew : (t.store p content).1.at? place ≠ none) :
    place <+: p.collapsed.names := by
  have hfolders : (t.ensureFolders p.parent).1.at? place ≠ none → place <+: p.collapsed.names := by
    intro hmade
    rcases hback.parent with ⟨found, hfound⟩ | ⟨hparent, hinitial⟩
    · rw [ensureFolders_of_not_missing (not_isMissing_parent hfound)] at hmade
      exact absurd hnone hmade
    · exact (prefix_of_new_folder hparent hnone hmade).trans hinitial
  rcases store_cases t p content with hsame | ⟨found, hfound, hput⟩
  · exact hfolders (hsame ▸ hnew)
  · by_cases hsame : place = found
    · exact (hsame.trans (locate_eq_collapsed hfound)) ▸ List.prefix_rfl
    · rw [hput, at?_put_of_ne _ hsame] at hnew
      exact hfolders hnew

theorem BacksWithin.grows {written : Place → Prop} (h : t.BacksWithin p)
    (hgrows : t.Grows written t') :
    t'.BacksWithin p := by
  obtain ⟨front, back, found, hnames, hfront, hupward⟩ := h
  exact ⟨front, back, found, hnames, follow_mono (fun _ => hgrows.folder) hfront, hupward⟩

/-- In a folder whose path leads back only where something is, so does the path of a location that
does not lead back. -/
theorem BacksWithin.join {folder : Path} (h : t.BacksWithin folder) {location : String}
    (hlocation : upward ∉ components location) : t.BacksWithin (folder.join location) := by
  unfold Path.join
  split
  · obtain ⟨front, back, found, hnames, hfront, hupward⟩ := h
    refine ⟨front, back ++ components location, found, ?_, hfront, ?_⟩
    · show folder.names ++ components location = _
      rw [hnames, List.append_assoc]
    · rw [List.mem_append, not_or]
      exact ⟨hupward, hlocation⟩
  · exact ⟨[], components location, [], rfl, rfl, hlocation⟩

/-! ### What is there -/

/-- Does the path `p` lead to something in `t`? -/
def isThere (t : FileTree) (p : Path) : Bool :=
  match t.locate p with
  | .ok place => (t.at? place).isSome
  | .error _ => false

theorem isThere_iff :
    t.isThere p = true ↔ ∃ place, t.locate p = .ok place ∧ t.at? place ≠ none := by
  unfold isThere
  cases t.locate p with
  | error cause => simp
  | ok place => simp [Option.isSome_iff_ne_none]

theorem isThere_of_has {found : Bool} (h : t.has p = .ok found) : found = t.isThere p := by
  unfold has at h
  obtain ⟨entry, hentry, rfl⟩ := Outcome.of_map_eq_ok h
  unfold get? at hentry
  unfold isThere
  cases hlocate : t.locate p with
  | ok place =>
    rw [hlocate] at hentry
    cases hentry
    rfl
  | error cause =>
    rw [hlocate] at hentry
    cases cause <;> cases hentry <;> rfl

/-- What is there stays there. -/
theorem isThere_grows {written : Place → Prop} (hgrows : t.Grows written t')
    (h : t.isThere p = true) : t'.isThere p = true := by
  obtain ⟨place, hplace, hthere⟩ := isThere_iff.1 h
  refine isThere_iff.2 ⟨place, hgrows.locate hplace, ?_⟩
  rcases hgrows place with hsame | ⟨hnone, -⟩ | ⟨-, -, content, hfile⟩
  · rwa [hsame]
  · exact absurd hnone hthere
  · rw [hfile]
    exact nofun

end FileTree

/-! ### A run

If no path of a file leads to the place of an earlier one, or around it (`Spread`), what is there
when a file is to be written is what was there when the run began.
-/

variable {folder : Path} {appendOnly : Bool} {t middle : FileTree} {files : List File}

/-- May a run that begins with `t` write the file `f`, because nothing is there or what is there may
be replaced? -/
def mayWrite (folder : Path) (appendOnly : Bool) (t : FileTree) (f : File) : Bool :=
  !t.isThere (folder.join f.location) || (f.replaceable && !appendOnly)

theorem mayWrite_of_isKept {f : File} {kept : Bool} (h : isKept t folder appendOnly f = .ok kept) :
    kept = !mayWrite folder appendOnly t f := by
  obtain ⟨found, hfound, rfl⟩ := Outcome.of_map_eq_ok h
  rw [FileTree.isThere_of_has hfound, mayWrite]
  cases t.isThere (folder.join f.location) <;> cases f.replaceable <;> cases appendOnly <;> rfl

/-- What may be written later could be written when the run began. -/
theorem mayWrite_of_grows {written : Place → Prop} (hgrows : t.Grows written middle) {f : File}
    (h : mayWrite folder appendOnly middle f = true) : mayWrite folder appendOnly t f = true := by
  rw [mayWrite, Bool.or_eq_true, Bool.not_eq_true'] at h ⊢
  refine h.imp_left fun hnone => ?_
  by_contra hthere
  rw [FileTree.isThere_grows hgrows (Bool.not_eq_false _ ▸ hthere)] at hnone
  cases hnone

/-- **From any point on, a run writes only where a file leads that it might write when it began**
(`mayWrite`). -/
theorem grows_where_mayWrite {earlier : Place → Prop} (hsofar : t.Grows earlier middle) :
    middle.Grows (fun place => ∃ f ∈ files, mayWrite folder appendOnly t f = true ∧
        (writeFiles folder appendOnly middle files).tree.locate (folder.join f.location) =
          .ok place)
      (writeFiles folder appendOnly middle files).tree := by
  replace hsofar : t.Grows (fun _ => True) middle := hsofar.weaken fun _ _ => trivial
  clear earlier
  induction files generalizing middle with
  | nil => exact FileTree.Grows.refl _ middle
  | cons f rest ih =>
    unfold writeFiles
    split
    · exact FileTree.Grows.refl _ middle
    · refine (ih hsofar).weaken ?_
      rintro place ⟨g, hg, hmay, hplace⟩
      exact ⟨g, List.mem_cons_of_mem f hg, hmay, hplace⟩
    next hkept =>
      dsimp only
      split
      next hstore => exact (FileTree.grows_of_failed_store hstore).weaken fun _ hnever =>
        hnever.elim
      next next hstore =>
        obtain ⟨place, hplace, -, hfirst⟩ := FileTree.of_store hstore
        have hrest := ih (hsofar.trans (hfirst.weaken fun _ _ => trivial))
        have hmay : mayWrite folder appendOnly t f = true := by
          refine mayWrite_of_grows hsofar ?_
          simpa using mayWrite_of_isKept hkept
        refine (hfirst.weaken ?_).trans (hrest.weaken ?_)
        · rintro _ rfl
          exact ⟨f, List.mem_cons_self, hmay, hrest.locate hplace⟩
        · rintro other ⟨g, hg, hmay, hplace⟩
          exact ⟨g, List.mem_cons_of_mem f hg, hmay, hplace⟩

/-- No file has the place of an earlier one, or of a folder around an earlier one. -/
def Spread (folder : Path) (files : List File) : Prop :=
  files.Pairwise fun f g =>
    ¬ (folder.join g.location).collapsed.names <+: (folder.join f.location).collapsed.names

theorem Spread.apart (h : Spread folder files) (t : FileTree) : Apart folder t files := by
  refine h.imp fun hapart place hplace hsame => hapart ?_
  have hnames :=
    (FileTree.locate_eq_collapsed hsame).symm.trans (FileTree.locate_eq_collapsed hplace)
  exact hnames ▸ List.prefix_rfl

/-- Relative locations none of which is another one, or one around another one, are spread in any
folder. -/
theorem spread_of_components (folder : Path)
    (hlocations : ∀ f ∈ files, Path.leadingSlashes f.location = 0 ∧ upward ∉ components f.location)
    (hapart : files.Pairwise fun f g => ¬ components g.location <+: components f.location) :
    Spread folder files := by
  have hnames : ∀ f ∈ files, (folder.join f.location).collapsed.names
      = Path.collapse [] folder.names ++ components f.location := by
    intro f hf
    rw [Path.join, if_pos (hlocations f hf).1, Path.collapsed, Path.collapse_append,
      Path.collapse_of_not_upward (hlocations f hf).2]
  refine hapart.imp_of_mem fun hf hg hother hinitial => hother ?_
  rw [hnames _ hf, hnames _ hg] at hinitial
  exact (List.prefix_append_right_inj _).1 hinitial

/-- What a run finds at a path is what was there when it began, if it has made nothing where that
leads. -/
theorem isThere_eq (hclosed : t.IsClosed) {p : Path} (hback : t.BacksWithin p)
    {earlier : Place → Prop} (hsofar : t.Grows earlier middle)
    (hfresh : t.at? p.collapsed.names = none → middle.at? p.collapsed.names = none) :
    middle.isThere p = t.isThere p := by
  rw [Bool.eq_iff_iff]
  refine ⟨fun hthere => ?_, FileTree.isThere_grows hsofar⟩
  obtain ⟨place, hplace, hsome⟩ := FileTree.isThere_iff.1 hthere
  obtain rfl := FileTree.locate_eq_collapsed hplace
  have hbefore := mt hfresh hsome
  exact FileTree.isThere_iff.2 ⟨_, hclosed.locate hsofar hback hbefore hplace, hbefore⟩

/-- **A run that succeeds writes the files that it might write when it began, in their order.** -/
theorem written_of_writeFiles (hclosed : t.IsClosed) {earlier : Place → Prop}
    (hsofar : t.Grows earlier middle) (hspread : Spread folder files)
    (hback : ∀ f ∈ files, t.BacksWithin (folder.join f.location))
    (hfresh : ∀ f ∈ files, t.at? (folder.join f.location).collapsed.names = none →
      middle.at? (folder.join f.location).collapsed.names = none)
    {written : List Path}
    (hreport : (writeFiles folder appendOnly middle files).report.outcome = .ok written) :
    written = (files.filter (mayWrite folder appendOnly t)).map (folder.join ·.location) := by
  replace hsofar : t.Grows (fun _ => True) middle := hsofar.weaken fun _ _ => trivial
  clear earlier
  induction files generalizing middle written with
  | nil =>
    cases hreport
    rfl
  | cons f rest ih =>
    obtain ⟨hhere, hrest⟩ := List.pairwise_cons.1 hspread
    rw [List.forall_mem_cons] at hback hfresh
    have hmay : mayWrite folder appendOnly middle f = mayWrite folder appendOnly t f := by
      rw [mayWrite, mayWrite, isThere_eq hclosed hback.1 hsofar hfresh.1]
    unfold writeFiles at hreport
    split at hreport
    · cases hreport
    next hkept =>
      dsimp only at hreport
      rw [Report.outcome_bind] at hreport
      obtain ⟨-, -, hreport⟩ := Outcome.of_bind_eq_ok hreport
      have hnot : mayWrite folder appendOnly t f = false := by
        rw [← hmay]
        simpa using mayWrite_of_isKept hkept
      rw [List.filter_cons_of_neg (by simp [hnot])]
      exact ih hrest hback.2 hfresh.2 hreport hsofar
    next hkept =>
      dsimp only at hreport
      have hwrites : mayWrite folder appendOnly t f = true := by
        rw [← hmay]
        simpa using mayWrite_of_isKept hkept
      split at hreport
      · cases hreport
      next next hstore =>
        simp only [Report.outcome_bind] at hreport
        obtain ⟨-, -, hreport⟩ := Outcome.of_bind_eq_ok hreport
        obtain ⟨others, hothers, hreport⟩ := Outcome.of_bind_eq_ok hreport
        cases hreport
        obtain ⟨place, -, -, hfirst⟩ := FileTree.of_store hstore
        have hlater := hsofar.trans (hfirst.weaken fun _ _ => trivial)
        -- What the first file brought is at the beginnings of its path, where no later one leads.
        have hstill : ∀ g ∈ rest, t.at? (folder.join g.location).collapsed.names = none →
            next.at? (folder.join g.location).collapsed.names = none := by
          intro g hg hnone
          by_contra hnew
          have hstored : (middle.store (folder.join f.location) (.text f.body)).1.at?
              (folder.join g.location).collapsed.names ≠ none := by rwa [hstore]
          exact hhere g hg (FileTree.prefix_of_new_of_store (hback.1.grows hsofar)
            (hfresh.2 g hg hnone) hstored)
        rw [List.filter_cons_of_pos hwrites, List.map_cons, ih hrest hback.2 hstill hothers hlater]

/-- A file stays the same if no file that a run might write when it began leads there. -/
theorem same_or_written {place : Place} {content : Content}
    (hfile : t.at? place = some (.file content)) :
    (writeFiles folder appendOnly t files).tree.at? place = some (.file content) ∨
      ∃ f ∈ files, mayWrite folder appendOnly t f = true ∧
        (writeFiles folder appendOnly t files).tree.locate (folder.join f.location) =
          .ok place := by
  by_cases hwritten : ∃ f ∈ files, mayWrite folder appendOnly t f = true ∧
      (writeFiles folder appendOnly t files).tree.locate (folder.join f.location) = .ok place
  · exact Or.inr hwritten
  · exact Or.inl
      ((grows_where_mayWrite (FileTree.Grows.refl (fun _ => True) t)).file_of_not hwritten hfile)

/-- What is there may be written only if it may be replaced. -/
theorem replaceable_of_mayWrite {f : File} (hthere : t.isThere (folder.join f.location) = true)
    (hmay : mayWrite folder appendOnly t f = true) : f.replaceable = true ∧ appendOnly = false := by
  rw [mayWrite, hthere] at hmay
  simpa using hmay

/-- After a run that succeeds, each file that it wrote holds its body. -/
theorem holds_body {written : List Path} (hspread : Spread folder files)
    (hreport : (writeFiles folder appendOnly t files).report.outcome = .ok written) {f : File}
    (hf : f ∈ files) (hwritten : folder.join f.location ∈ written) :
    ∃ place, (writeFiles folder appendOnly t files).tree.locate (folder.join f.location) =
      .ok place ∧
      (writeFiles folder appendOnly t files).tree.at? place = some (.file (.text f.body)) := by
  obtain ⟨-, -, hsettled⟩ := of_writeFiles rfl hreport (hspread.apart _)
  cases hsettled f hf with
  | written hplace hbody => exact ⟨_, hplace, hbody⟩
  | kept _ _ _ _ hnot => exact absurd hwritten hnot

/-- **After a run, whether it fails or not, every file is still one, and its content is the same
unless a file leads there that may be replaced, or whose path led nowhere when the run began. Where
the folder's path leads back only from what is there (`BacksWithin`), only files that may be
replaced change, and they led to what is changed when the run began; and a run that succeeds writes
just the files that may be replaced or were not there, each of which then holds its body.** -/
theorem frame_of_writeFiles (hclosed : t.IsClosed)
    (hlocations : ∀ f ∈ files, upward ∉ components f.location) (hspread : Spread folder files) :
    let run := writeFiles folder appendOnly t files
    (∀ place content, t.at? place = some (.file content) →
      ∃ later, run.tree.at? place = some (.file later) ∧
        (later = content ∨ ∃ f ∈ files, mayWrite folder appendOnly t f = true ∧
          run.tree.locate (folder.join f.location) = .ok place)) ∧
    (t.BacksWithin folder →
      (∀ place content, t.at? place = some (.file content) →
        run.tree.at? place = some (.file content) ∨
          ∃ f ∈ files, t.locate (folder.join f.location) = .ok place ∧
            f.replaceable = true ∧ appendOnly = false) ∧
      ∀ written, run.report.outcome = .ok written →
        written = (files.filter (mayWrite folder appendOnly t)).map (folder.join ·.location) ∧
        ∀ f ∈ files, mayWrite folder appendOnly t f = true →
          ∃ place, run.tree.locate (folder.join f.location) = .ok place ∧
            run.tree.at? place = some (.file (.text f.body))) := by
  intro run
  have hgrows : t.Grows _ run.tree := grows_where_mayWrite (FileTree.Grows.refl (fun _ => True) t)
  refine ⟨fun place content hfile => ?_, fun hback => ⟨fun place content hfile => ?_, ?_⟩⟩
  · obtain ⟨later, hlater⟩ := hgrows.file hfile
    refine ⟨later, hlater, ?_⟩
    rcases same_or_written hfile with hsame | hwritten
    · rw [hlater] at hsame
      cases hsame
      exact Or.inl rfl
    · exact Or.inr hwritten
  · rcases same_or_written hfile with hsame | ⟨f, hf, hmay, hplace⟩
    · exact Or.inl hsame
    · have hthere : t.at? place ≠ none := by
        rw [hfile]
        exact nofun
      have hbefore := hclosed.locate hgrows (hback.join (hlocations f hf)) hthere hplace
      have hfound := FileTree.isThere_iff.2 ⟨place, hbefore, hthere⟩
      exact Or.inr ⟨f, hf, hbefore, replaceable_of_mayWrite hfound hmay⟩
  · intro written hreport
    have hwritten := written_of_writeFiles hclosed (FileTree.Grows.refl (fun _ => True) t) hspread
      (fun f hf => hback.join (hlocations f hf)) (fun _ _ hnone => hnone) hreport
    refine ⟨hwritten, fun f hf hmay => holds_body hspread hreport hf ?_⟩
    rw [hwritten]
    exact List.mem_map_of_mem (List.mem_filter.2 ⟨hf, hmay⟩)

/-- Files of which one is not to be replaced. -/
def draftFiles : List File :=
  [⟨"notes", "generated notes", false⟩, ⟨"schema", "generated schema", true⟩,
    ⟨"tables/Post", "generated table", true⟩]

/-- A tree in which two of these files are already. -/
def draftTree : FileTree :=
  ⟨[(["w"], .folder), (["w", "build"], .folder),
    (["w", "build", "notes"], .file (.text "edited notes")),
    (["w", "build", "schema"], .file (.text "former schema"))]⟩

/-- Written into their folder, they leave the edited file as it is; written by way of a folder that
is missing, they replace it. -/
theorem edited_notes_lost :
    let notes := ["w", "build", "notes"]
    let direct := writeFiles ⟨["w", "build"], false⟩ false draftTree draftFiles
    let roundabout := writeFiles ⟨["w", "gen", "..", "build"], false⟩ false draftTree draftFiles
    (direct.tree.at? notes = some (.file (.text "edited notes")) ∧
      (∃ place, direct.tree.locate ⟨["w", "build", "schema"], false⟩ = .ok place ∧
        direct.tree.at? place = some (.file (.text "generated schema"))) ∧
      direct.report.outcome
        = .ok [⟨["w", "build", "schema"], false⟩, ⟨["w", "build", "tables", "Post"], false⟩]) ∧
    roundabout.tree.at? notes = some (.file (.text "generated notes")) ∧
      ∃ f ∈ draftFiles, mayWrite ⟨["w", "gen", "..", "build"], false⟩ false draftTree f = true ∧
        roundabout.tree.locate (Path.join ⟨["w", "gen", "..", "build"], false⟩ f.location) =
          .ok notes := by
  intro notes direct roundabout
  have hclosed : draftTree.IsClosed := FileTree.isClosed_of_entries (by decide +kernel)
  have hlocations : ∀ f ∈ draftFiles, Path.leadingSlashes f.location = 0 ∧
      upward ∉ components f.location := by
    decide +kernel
  have hapart :
      draftFiles.Pairwise fun f g => ¬ components g.location <+: components f.location := by
    decide +kernel
  have hplain := fun f hf => (hlocations f hf).2
  have hback : draftTree.BacksWithin ⟨["w", "build"], false⟩ := by
    refine ⟨[], ["w", "build"], [], rfl, rfl, ?_⟩
    decide
  have hnotes : draftTree.at? notes = some (.file (.text "edited notes")) := by decide
  have hrun : Outcome.Holds direct.report.outcome fun _ => True := by decide +kernel
  have hlost : roundabout.tree.at? notes = some (.file (.text "generated notes")) := by
    decide +kernel
  obtain ⟨written, hwritten, -⟩ := hrun
  obtain ⟨-, hdirect⟩ := @frame_of_writeFiles _ false _ _ hclosed hplain
    (spread_of_components ⟨["w", "build"], false⟩ hlocations hapart)
  obtain ⟨hkept, hreturned⟩ := hdirect hback
  obtain ⟨hpaths, hbodies⟩ := hreturned written hwritten
  obtain ⟨hroundabout, -⟩ := @frame_of_writeFiles _ false _ _ hclosed hplain
    (spread_of_components ⟨["w", "gen", "..", "build"], false⟩ hlocations hapart)
  refine ⟨⟨?_, ?_, ?_⟩, hlost, ?_⟩
  · refine (hkept notes _ hnotes).resolve_right ?_
    decide +kernel
  · exact hbodies ⟨"schema", "generated schema", true⟩ (by decide) (by decide +kernel)
  · rw [hwritten, hpaths]
    refine congrArg Except.ok ?_
    decide +kernel
  · obtain ⟨later, hlater, hsame | hwritten⟩ := hroundabout notes _ hnotes
    · rw [hlost] at hlater
      cases hlater
      exact absurd hsame (by decide)
    · exact hwritten

end SchemaLoom.Workspace
