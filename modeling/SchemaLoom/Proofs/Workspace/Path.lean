/-
Paths of locations.

In a folder, a location stands for the path of its components (`join_location`).  No component
leads back, so where a location leads from a folder is told by following its components
(`locate_location`), and two locations never lead from one folder to one place.

A path is proper if it is made of names (`Path.IsProper`).  Names may lead back there, as the
path of the folder may be given in any way.
-/
import SchemaLoom.Proofs.Artifact.Location
import SchemaLoom.Proofs.Workspace.Writing

namespace SchemaLoom.Workspace

open Artifact

/-! ### Names -/

theorem not_mem_of_mem_splitChars {separator : Char} {cs part : List Char}
    (h : part ∈ Text.splitChars separator cs) : separator ∉ part := by
  induction cs generalizing part with
  | nil =>
    rw [List.mem_singleton.1 h]
    exact List.not_mem_nil
  | cons c cs ih =>
    rw [Text.splitChars] at h
    split at h
    · rcases List.mem_cons.1 h with rfl | h
      · exact List.not_mem_nil
      · exact ih h
    next hother =>
      cases hparts : Text.splitChars separator cs with
      | nil => exact absurd hparts (Text.splitChars_ne_nil separator cs)
      | cons first parts =>
        rw [hparts] at h ih
        rcases List.mem_cons.1 h with rfl | h
        · rw [List.mem_cons, not_or]
          exact ⟨Ne.symm hother, ih List.mem_cons_self⟩
        · exact ih (List.mem_cons_of_mem first h)

/-- The text `name` can stand in a path: it names a file, or it leads back. -/
structure IsPathName (name : String) : Prop where
  notEmpty : name ≠ ""
  notHere : name ≠ "."
  noSlash : '/' ∉ name.toList

instance (name : String) : Decidable (IsPathName name) :=
  decidable_of_iff (name ≠ "" ∧ name ≠ "." ∧ '/' ∉ name.toList)
    ⟨fun h => ⟨h.1, h.2.1, h.2.2⟩, fun h => ⟨h.notEmpty, h.notHere, h.noSlash⟩⟩

theorem isPathName_of_mem_components {text name : String} (h : name ∈ components text) :
    IsPathName name := by
  obtain ⟨hmem, hcounts⟩ := List.mem_filter.1 h
  obtain ⟨part, hpart, rfl⟩ := List.mem_map.1 hmem
  have hboth := of_decide_eq_true hcounts
  refine ⟨hboth.1, hboth.2, ?_⟩
  rw [String.toList_ofList]
  exact not_mem_of_mem_splitChars hpart

/-- The path is made of names. -/
def Path.IsProper (p : Path) : Prop := ∀ n ∈ p.names, IsPathName n

instance (p : Path) : Decidable p.IsProper :=
  inferInstanceAs (Decidable (∀ n ∈ p.names, IsPathName n))

theorem Path.IsProper.join {p : Path} (h : p.IsProper) (text : String) :
    (p.join text).IsProper := by
  intro n hn
  unfold Path.join at hn
  split at hn
  · rcases List.mem_append.1 hn with hn | hn
    · exact h n hn
    · exact isPathName_of_mem_components hn
  · exact isPathName_of_mem_components hn

/-- **A path to a file ends with the name of a file.** -/
theorem Path.IsProper.isFileName {p : Path} (h : p.IsProper) {t : FileTree} (hclosed : t.IsClosed)
    {place : Place} (hplace : t.locate p = .ok place) {content : Content}
    (hfile : t.at? place = some (.file content)) : IsFileName p.name := by
  obtain ⟨-, -, hfollow⟩ := FileTree.locate_eq_ok.1 hplace
  have hsome : p.names ≠ [] := by
    intro hnone
    rw [hnone] at hfollow
    cases hfollow
    cases hfile
  have hlast : p.name = p.names.getLast hsome := by
    rw [Path.name, List.getLastD_eq_getLast?, List.getLast?_eq_some_getLast hsome]
    rfl
  obtain ⟨hempty, hhere, hslash⟩ := h _ (List.getLast_mem hsome)
  rw [← List.dropLast_concat_getLast hsome] at hfollow
  rw [hlast]
  exact ⟨hempty, hhere, hclosed.getLast_ne_upward hfollow hfile, hslash⟩

/-! ### Locations -/

/-- A location stands for the path of its components. -/
theorem join_location (folder : Path) {location : String} (h : IsLocation location) :
    folder.join location = { folder with names := folder.names ++ components location } := by
  have hnone : Path.leadingSlashes location = 0 := by
    unfold Path.leadingSlashes
    cases hchars : location.toList with
    | nil => rfl
    | cons c cs =>
      have hhead := h.head
      rw [hchars] at hhead
      have hother : c ≠ '/' := by simpa using hhead
      simp [hother]
  rw [Path.join, if_pos hnone]

theorem upward_not_mem_components {location : String} (h : IsLocation location) :
    upward ∉ components location :=
  fun hmem => (h.isFileName upward hmem).notBack rfl

/-- Where a location leads from a folder. -/
theorem locate_location {t : FileTree} {folder : Path} {location : String} (h : IsLocation location)
    {place : Place} (hplace : t.locate (folder.join location) = .ok place) :
    ∃ around, t.follow [] folder.names = .ok around ∧ place = around ++ components location := by
  rw [join_location folder h, FileTree.locate_eq_ok, FileTree.follow_append] at hplace
  obtain ⟨around, haround, hfollow⟩ := Outcome.of_bind_eq_ok hplace.2.2
  exact ⟨around, haround, FileTree.follow_eq_of_not_upward (upward_not_mem_components h) hfollow⟩

/-- **Files of different locations share no place.** -/
theorem apart_of_isLocation {folder : Path} {t : FileTree} {files : List File}
    (hnodup : (files.map (·.location)).Nodup) (h : ∀ f ∈ files, IsLocation f.location) :
    Apart folder t files := by
  have hpairs := List.pairwise_map.1 hnodup
  refine hpairs.imp_of_mem ?_
  intro f g hf hg hother place hplace hsame
  obtain ⟨around, haround, rfl⟩ := locate_location (h f hf) hplace
  obtain ⟨other, hfollow, heq⟩ := locate_location (h g hg) hsame
  rw [haround] at hfollow
  cases hfollow
  exact hother ((h f hf).eq_of_components (h g hg) (List.append_cancel_left heq))

end SchemaLoom.Workspace
