/-
What writing makes of a file tree.

Folders are made where nothing is, and a file is written where no folder is.  So a tree only
grows (`Grows`): folders stay, files stay files, and the only files that change are those
written.  A path that leads somewhere therefore goes on leading there (`follow_mono`).

Storing a file puts its content where its path leads (`of_store`), and storing what a file holds
already changes nothing (`store_again`).

A path may lead back.  In a tree where all that is anywhere is in a folder (`IsClosed`), a path
that leads to something that was there before led there before, unless it leads back from where
nothing was; `BacksWithin` rules that out.
-/
import SchemaLoom.Outcome
import SchemaLoom.Workspace.FileTree

namespace SchemaLoom.Workspace.FileTree

variable {t t' t'' : FileTree}

/-! ### Growth

A tree grows if folders are made where nothing was, and files are written where no folder is.  So
paths lead where they led.
-/

/-- The tree `t'` says the same of every place as `t`. -/
def Same (t t' : FileTree) : Prop := ∀ place, t'.at? place = t.at? place

/-- The tree `t'` grew out of `t`, where files were written at places of `written` only. -/
def Grows (written : Place → Prop) (t t' : FileTree) : Prop :=
  ∀ place, t'.at? place = t.at? place ∨ (t.at? place = none ∧ t'.at? place = some .folder) ∨
    (written place ∧ t.at? place ≠ some .folder ∧ ∃ content, t'.at? place = some (.file content))

theorem Grows.refl (written : Place → Prop) (t : FileTree) : t.Grows written t :=
  fun _ => Or.inl rfl

theorem Grows.weaken {written more : Place → Prop} (h : t.Grows written t')
    (hmore : ∀ place, written place → more place) : t.Grows more t' := by
  intro place
  rcases h place with hsame | hnew | ⟨hwritten, hrest⟩
  · exact Or.inl hsame
  · exact Or.inr (Or.inl hnew)
  · exact Or.inr (Or.inr ⟨hmore place hwritten, hrest⟩)

theorem Grows.trans {written : Place → Prop} (h : t.Grows written t') (h' : t'.Grows written t'') :
    t.Grows written t'' := by
  intro place
  rcases h' place with hsame | ⟨hnone, hfolder⟩ | ⟨hwritten, hfree, hfile⟩
  · rw [hsame]
    exact h place
  · rcases h place with hbefore | ⟨-, hbefore⟩ | ⟨-, -, content, hbefore⟩
    · exact Or.inr (Or.inl ⟨hbefore ▸ hnone, hfolder⟩)
    · rw [hbefore] at hnone
      cases hnone
    · rw [hbefore] at hnone
      cases hnone
  · refine Or.inr (Or.inr ⟨hwritten, ?_, hfile⟩)
    rcases h place with hbefore | ⟨hnone, -⟩ | ⟨-, hbefore, -⟩
    · rwa [← hbefore]
    · simp [hnone]
    · exact hbefore

/-- Folders stay. -/
theorem Grows.folder {written : Place → Prop} (h : t.Grows written t') {place : Place}
    (hfolder : t.at? place = some .folder) : t'.at? place = some .folder := by
  rcases h place with hsame | ⟨-, hnew⟩ | ⟨-, hfree, -⟩
  · rw [hsame, hfolder]
  · exact hnew
  · exact absurd hfolder hfree

/-- Where nothing was written, only folders are new. -/
theorem Grows.at?_of_not {written : Place → Prop} (h : t.Grows written t') {place : Place}
    (hnot : ¬ written place) :
    t'.at? place = t.at? place ∨ (t.at? place = none ∧ t'.at? place = some .folder) := by
  rcases h place with hsame | hnew | ⟨hwritten, -⟩
  · exact Or.inl hsame
  · exact Or.inr hnew
  · exact absurd hwritten hnot

/-- Files that are not written stay as they are. -/
theorem Grows.file_of_not {written : Place → Prop} (h : t.Grows written t') {place : Place}
    (hnot : ¬ written place) {content : Content} (hfile : t.at? place = some (.file content)) :
    t'.at? place = some (.file content) := by
  rcases h.at?_of_not hnot with hsame | ⟨hnone, -⟩
  · rw [hsame, hfile]
  · rw [hfile] at hnone
    cases hnone

theorem grows_put {place : Place} {e : Entry} (hplace : place ≠ [])
    (h : (t.at? place = none ∧ e = .folder) ∨
      (t.at? place ≠ some .folder ∧ ∃ content, e = .file content)) :
    t.Grows (· = place) (t.put place e) := by
  intro other
  by_cases hsame : other = place
  · subst hsame
    rw [at?_put_self e hplace]
    rcases h with ⟨hnone, rfl⟩ | ⟨hfree, content, rfl⟩
    · exact Or.inr (Or.inl ⟨hnone, rfl⟩)
    · exact Or.inr (Or.inr ⟨rfl, hfree, content, rfl⟩)
  · exact Or.inl (at?_put_of_ne e hsame)

/-! ### Following -/

theorem at?_nil (t : FileTree) : t.at? [] = some .folder := rfl

/-- The root is a folder. -/
theorem ne_nil_of_free {place : Place} (h : t.at? place ≠ some .folder) : place ≠ [] := by
  rintro rfl
  exact h (at?_nil t)

/-- Names are followed one after the other. -/
theorem follow_append (t : FileTree) (place : Place) (names more : List String) :
    t.follow place (names ++ more) = t.follow place names >>= fun found => t.follow found more := by
  induction names generalizing place with
  | nil => rfl
  | cons name names ih =>
    rw [List.cons_append, follow, follow]
    cases t.at? place with
    | none => rfl
    | some e =>
      cases e with
      | file content => rfl
      | folder =>
        dsimp only
        split
        · rfl
        · exact ih _

/-- Following one more name leads from a folder to what is named there. -/
theorem follow_concat_eq_ok {place found : Place} {names : List String} {name : String}
    (h : t.follow place (names ++ [name]) = .ok found) :
    ∃ around, t.follow place names = .ok around ∧ t.at? around = some .folder ∧
      found = if name = upward then around.dropLast else around ++ [name] := by
  rw [follow_append] at h
  obtain ⟨around, haround, h⟩ := Outcome.of_bind_eq_ok h
  rw [follow] at h
  split at h
  · cases h
  · cases h
  next hfolder =>
    split at h
    · cases h
    · cases h
      exact ⟨around, haround, hfolder, rfl⟩

/-- Where no name leads back, names lead to the place that they name. -/
theorem follow_eq_of_not_upward {place found : Place} {names : List String}
    (hupward : upward ∉ names) (h : t.follow place names = .ok found) : found = place ++ names := by
  induction names generalizing place with
  | nil =>
    cases h
    simp
  | cons name names ih =>
    rw [List.mem_cons, not_or] at hupward
    rw [follow] at h
    split at h
    · cases h
    · cases h
    · split at h
      · cases h
      · rw [if_neg (Ne.symm hupward.1)] at h
        rw [ih hupward.2 h]
        simp

/-- **Where folders stay, paths go on leading where they led.** -/
theorem follow_mono (hfolders : ∀ place, t.at? place = some .folder → t'.at? place = some .folder)
    {place found : Place} {names : List String} (h : t.follow place names = .ok found) :
    t'.follow place names = .ok found := by
  induction names generalizing place with
  | nil => exact h
  | cons name names ih =>
    rw [follow] at h ⊢
    split at h
    · cases h
    · cases h
    next hfolder =>
      rw [hfolders _ hfolder]
      dsimp only
      split at h
      · cases h
      next hshort =>
        rw [if_neg hshort]
        exact ih h

theorem locate_eq_ok {p : Path} {place : Place} :
    t.locate p = .ok place ↔ p.isBroken = false ∧ p.text.utf8ByteSize ≤ pathLimit ∧
      t.follow [] p.names = .ok place := by
  unfold locate
  split
  next hbroken => simp [hbroken]
  next hwhole =>
    split
    next hlong => simp [hwhole, Nat.not_le.2 hlong]
    next hshort => simp [hwhole, Nat.not_lt.1 hshort]

theorem Grows.locate {written : Place → Prop} (h : t.Grows written t') {p : Path} {place : Place}
    (hlocate : t.locate p = .ok place) : t'.locate p = .ok place := by
  rw [locate_eq_ok] at hlocate ⊢
  exact ⟨hlocate.1, hlocate.2.1, follow_mono (fun _ => h.folder) hlocate.2.2⟩

theorem Same.locate (h : t.Same t') {p : Path} {place : Place} (hlocate : t.locate p = .ok place) :
    t'.locate p = .ok place := by
  rw [locate_eq_ok] at hlocate ⊢
  exact ⟨hlocate.1, hlocate.2.1,
    follow_mono (fun other hfolder => (h other).trans hfolder) hlocate.2.2⟩

/-! ### Making folders -/

theorem of_makeFolder {p : Path} (h : t.makeFolder p = .ok t') :
    ∃ place, t.locate p = .ok place ∧ t.at? place = none ∧ t' = t.put place .folder := by
  unfold makeFolder at h
  obtain ⟨place, hplace, h⟩ := Outcome.of_bind_eq_ok h
  split at h
  · cases h
  next hnone =>
    cases h
    exact ⟨place, hplace, hnone, rfl⟩

theorem grows_makeFolder {p : Path} (h : t.makeFolder p = .ok t') :
    t.Grows (fun _ => False) t' := by
  obtain ⟨place, -, hnone, rfl⟩ := of_makeFolder h
  intro other
  by_cases hsame : other = place
  · subst hsame
    have hroot : other ≠ [] := ne_nil_of_free (by rw [hnone]; exact nofun)
    exact Or.inr (Or.inl ⟨hnone, at?_put_self _ hroot⟩)
  · exact Or.inl (at?_put_of_ne _ hsame)

theorem grows_ensureFolder (t : FileTree) (p : Path) :
    t.Grows (fun _ => False) (t.ensureFolder p).1 := by
  unfold ensureFolder
  split
  next hmade => exact grows_makeFolder hmade
  · split <;> exact Grows.refl _ t

/-- **Making folders changes no file**: the tree `Grows`, and nothing is written. -/
theorem grows_ensureFolders (t : FileTree) (p : Path) :
    t.Grows (fun _ => False) (t.ensureFolders p).1 := by
  fun_induction ensureFolders t p with
  | case1 p _ _ => exact grows_ensureFolder t p
  | case2 p _ _ _ _ haround ih =>
    rw [haround] at ih
    exact ih
  | case3 p _ _ _ haround ih =>
    rw [haround] at ih
    exact ih.trans (grows_ensureFolder _ p)
  | case4 p _ => exact grows_ensureFolder t p

/-! ### Writing -/

/-- **Storing a file puts its content where its path leads, and changes no other file.** -/
theorem of_store {p : Path} {content : Content} (h : t.store p content = (t', none)) :
    ∃ place, t'.locate p = .ok place ∧ t'.at? place = some (.file content) ∧
      t.Grows (· = place) t' := by
  unfold store at h
  have haround := grows_ensureFolders t p.parent
  split at h
  · cases h
  next next hfolders =>
    rw [hfolders] at haround
    split at h
    next written hwrite =>
      cases h
      unfold write at hwrite
      obtain ⟨place, hplace, hwrite⟩ := Outcome.of_bind_eq_ok hwrite
      split at hwrite
      · cases hwrite
      next hfree =>
        cases hwrite
        have hroot := ne_nil_of_free hfree
        have hput := grows_put hroot (Or.inr ⟨hfree, content, rfl⟩)
        exact ⟨place, hput.locate hplace, at?_put_self _ hroot,
          (haround.weaken fun _ hnone => hnone.elim).trans hput⟩
    · cases h

/-! ### Writing again

A file that was written once is written again without a folder being made.
-/

/-- A path without its last name is no longer. -/
theorem size_parent_le (p : Path) : p.parent.text.utf8ByteSize ≤ p.text.utf8ByteSize := by
  obtain ⟨names, isDoubled⟩ := p
  have hnames : ("/".intercalate names.dropLast).utf8ByteSize ≤
      ("/".intercalate names).utf8ByteSize := by
    by_cases hsome : names.dropLast = []
    · rw [hsome, String.intercalate_nil]
      exact Nat.zero_le _
    · have hnonempty : names ≠ [] := by
        rintro rfl
        exact hsome rfl
      have hwhole : "/".intercalate names
          = "/".intercalate names.dropLast ++ "/" ++ names.getLast hnonempty := by
        have hparts := String.intercalate_append_of_ne_nil (s := "/") hsome
          (List.cons_ne_nil (names.getLast hnonempty) [])
        rwa [List.dropLast_concat_getLast, String.intercalate_singleton] at hparts
      rw [hwhole, String.utf8ByteSize_append, String.utf8ByteSize_append]
      omega
  simp only [Path.text, Path.parent, String.utf8ByteSize_append]
  exact Nat.add_le_add_left hnames _

/-- Around what is no folder is a folder, to which the path without the last name leads. -/
theorem locate_parent {p : Path} {place : Place} (h : t.locate p = .ok place)
    (hother : t.at? place ≠ some .folder) :
    ∃ around, t.locate p.parent = .ok around ∧ t.at? around = some .folder := by
  obtain ⟨hwhole, hshort, hfollow⟩ := locate_eq_ok.1 h
  have hnonempty : p.names ≠ [] := by
    intro hempty
    rw [hempty] at hfollow
    cases hfollow
    exact hother (at?_nil t)
  rw [← List.dropLast_concat_getLast hnonempty] at hfollow
  obtain ⟨around, haround, hfolder, -⟩ := follow_concat_eq_ok hfollow
  refine ⟨around, locate_eq_ok.2 ⟨?_, Nat.le_trans (size_parent_le p) hshort, haround⟩, hfolder⟩
  rw [Path.isBroken, List.any_eq_false] at hwhole ⊢
  exact fun name hname => hwhole name (List.dropLast_subset _ hname)

theorem makeFolder_of_there {p : Path} {place : Place} (h : t.locate p = .ok place)
    (hfolder : t.at? place = some .folder) : t.makeFolder p = .error .exists := by
  unfold makeFolder
  rw [h, Outcome.ok_bind, hfolder]

/-- Making a folder that is there does nothing. -/
theorem ensureFolders_of_there {p : Path} {place : Place} (h : t.locate p = .ok place)
    (hfolder : t.at? place = some .folder) : t.ensureFolders p = (t, none) := by
  have hthere : t.isFolder p = true := by
    simp [isFolder, get?, h, hfolder]
  rw [ensureFolders, makeFolder_of_there h hfolder]
  simp [ensureFolder, makeFolder_of_there h hfolder, hthere]

/-- Storing a file where no folder is makes no folder. -/
theorem store_of_free {p : Path} {place : Place} (h : t.locate p = .ok place)
    (hfree : t.at? place ≠ some .folder) (content : Content) :
    t.store p content = (t.put place (.file content), none) := by
  obtain ⟨around, haround, hfolder⟩ := locate_parent h hfree
  unfold store
  rw [ensureFolders_of_there haround hfolder]
  have hwrite : t.write p content = .ok (t.put place (.file content)) := by
    unfold write
    rw [h, Outcome.ok_bind]
    split
    next hthere => exact absurd hthere hfree
    · rfl
  dsimp only
  rw [hwrite]

/-- All that is anywhere in the tree is in a folder. -/
def IsClosed (t : FileTree) : Prop :=
  ∀ place, place ≠ [] → t.at? place ≠ none → t.at? place.dropLast = some .folder

/-- A tree is closed if its entries are in folders. -/
theorem isClosed_of_entries (h : ∀ e ∈ t.entries, t.at? e.1.dropLast = some .folder) :
    t.IsClosed := by
  intro place hroot hthere
  rw [at?, if_neg hroot] at hthere
  obtain ⟨e, hlookup⟩ := Option.ne_none_iff_exists'.1 hthere
  obtain ⟨before, rest, hentries, -⟩ := List.lookup_eq_some_iff.1 hlookup
  exact h (place, e) (by rw [hentries]; exact List.mem_append_right _ List.mem_cons_self)

/-- All that is above something is a folder. -/
theorem IsClosed.above (h : t.IsClosed) {place : Place} {names : List String} (hsome : names ≠ [])
    (hthere : t.at? (place ++ names) ≠ none) : t.at? place = some .folder := by
  obtain ⟨first, last, rfl⟩ : ∃ first last, names = first ++ [last] :=
    ⟨names.dropLast, names.getLast hsome, (List.dropLast_concat_getLast hsome).symm⟩
  clear hsome
  induction hlength : first.length generalizing first last with
  | zero =>
    have habove := h _ (by simp) hthere
    rw [List.length_eq_zero_iff.1 hlength] at habove
    simpa using habove
  | succ n ih =>
    have hnonempty : first ≠ [] := by
      rintro rfl
      cases hlength
    have habove := h _ (by simp) hthere
    rw [← List.append_assoc, List.dropLast_concat] at habove
    refine ih first.dropLast (first.getLast hnonempty) ?_ ?_
    · rw [List.dropLast_concat_getLast, habove]
      exact nofun
    · rw [List.length_dropLast, hlength]
      rfl

/-- **Names that lead to something that was there before led there before, if none leads back.** -/
theorem IsClosed.follow (h : t.IsClosed) {place found : Place} {names : List String}
    (hupward : upward ∉ names) (hthere : t.at? (place ++ names) ≠ none)
    (hfollow : t'.follow place names = .ok found) : t.follow place names = .ok found := by
  induction names generalizing place with
  | nil => exact hfollow
  | cons name names ih =>
    rw [List.mem_cons, not_or] at hupward
    have hfolder := h.above (List.cons_ne_nil name names) hthere
    rw [FileTree.follow] at hfollow ⊢
    rw [hfolder]
    split at hfollow
    · cases hfollow
    · cases hfollow
    · split at hfollow
      · cases hfollow
      next hshort =>
        rw [if_neg hshort]
        rw [if_neg (Ne.symm hupward.1)] at hfollow ⊢
        refine ih hupward.2 ?_ hfollow
        simpa using hthere

/-- All of the path that leads back, and what is before it, leads somewhere. -/
def BacksWithin (t : FileTree) (p : Path) : Prop :=
  ∃ front back place, p.names = front ++ back ∧ t.follow [] front = .ok place ∧ upward ∉ back

/-- **A path that leads to something that was there before led there before, unless it leads back
from where nothing was** (`BacksWithin`). -/
theorem IsClosed.locate (h : t.IsClosed) {written : Place → Prop} (hgrows : t.Grows written t')
    {p : Path} (hback : t.BacksWithin p) {place : Place} (hthere : t.at? place ≠ none)
    (hlocate : t'.locate p = .ok place) : t.locate p = .ok place := by
  rw [locate_eq_ok] at hlocate ⊢
  refine ⟨hlocate.1, hlocate.2.1, ?_⟩
  obtain ⟨front, back, around, hnames, hfront, hupward⟩ := hback
  have hfollow := hlocate.2.2
  rw [hnames, follow_append, follow_mono (fun _ => hgrows.folder) hfront, Outcome.ok_bind]
    at hfollow
  rw [hnames, follow_append, hfront, Outcome.ok_bind]
  exact h.follow hupward (follow_eq_of_not_upward hupward hfollow ▸ hthere) hfollow

/-- A path that leads to a file does not end by leading back. -/
theorem IsClosed.getLast_ne_upward (h : t.IsClosed) {names : List String} {name : String}
    {place : Place} (hfollow : t.follow [] (names ++ [name]) = .ok place) {content : Content}
    (hfile : t.at? place = some (.file content)) : name ≠ upward := by
  rintro rfl
  obtain ⟨around, -, hfolder, rfl⟩ := follow_concat_eq_ok hfollow
  rw [if_pos rfl] at hfile
  by_cases hroot : around = []
  · subst hroot
    cases hfile
  · have habove := h around hroot (by rw [hfolder]; exact nofun)
    rw [habove] at hfile
    cases hfile

end SchemaLoom.Workspace.FileTree
