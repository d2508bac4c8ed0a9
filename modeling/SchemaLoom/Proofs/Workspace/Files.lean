/-
What files are put together from.

Every location that fragments are addressed to has its file, put together from those fragments
and from the file that a former build left there.  A file is looked for only where it is asked
for, and what is found is what is at the end of its path (`existingFile_of_file`,
`existingFile_of_not_file`).

The former files are read into a list first, and then looked up by location.  So what is looked
up is what was found at the location (`existingFile_of_existingFiles`), and the order of reading
has no say; files stand in the order in which the fragments first turn to their locations
(`map_location_assemble`).
-/
import SchemaLoom.Outcome
import SchemaLoom.Proofs.Workspace.FileTree
import SchemaLoom.Workspace.Build

namespace SchemaLoom

open Artifact

namespace Workspace

variable {t : FileTree} {folder : Path} {location : String}

/-! ### Single files -/

theorem FileTree.isFile_eq_true {p : Path} :
    t.isFile p = .ok true ↔
      ∃ place content, t.locate p = .ok place ∧ t.at? place = some (.file content) := by
  unfold FileTree.isFile FileTree.get?
  constructor
  · intro h
    split at h
    next place hplace =>
      cases hthere : t.at? place with
      | none => simp [hthere, Except.map] at h
      | some e =>
        cases e with
        | folder => simp [hthere, Except.map] at h
        | file content => exact ⟨place, content, hplace, hthere⟩
    · cases h
    · cases h
  · rintro ⟨place, content, hplace, hfile⟩
    rw [hplace]
    simp [hfile, Except.map]

/-- What the text of a file is. -/
theorem FileTree.readText_of_file {p : Path} {place : Place} {content : Content}
    (hplace : t.locate p = .ok place) (hfile : t.at? place = some (.file content)) :
    t.readText p =
      match content.text? with
      | some text => .ok text
      | none => .error (.undecodable p) := by
  have hread : t.read p = .ok content := by
    simp [FileTree.read, hplace, hfile]
  cases htext : content.text? <;> simp [FileTree.readText, hread, htext]

/-- What can be read is a file. -/
theorem FileTree.of_readText {p : Path} {text : String} (h : t.readText p = .ok text) :
    ∃ place content, t.locate p = .ok place ∧ t.at? place = some (.file content) ∧
      content.text? = some text := by
  unfold FileTree.readText at h
  split at h
  · cases h
  · cases h
  next content hread =>
    split at h
    next found htext =>
      cases h
      unfold FileTree.read at hread
      obtain ⟨place, hplace, hread⟩ := Outcome.of_bind_eq_ok hread
      split at hread
      next other hfile =>
        cases hread
        exact ⟨place, content, hplace, hfile, htext⟩
      · cases hread
      · cases hread
    · cases h

/-- What a file that is there is found to hold. -/
theorem existingFile_of_file {place : Place} {content : Content} {text : String}
    (hplace : t.locate (folder.join location) = .ok place)
    (hfile : t.at? place = some (.file content)) (htext : content.text? = some text) :
    existingFile t folder location = .ok (some (location, text)) := by
  have hthere := FileTree.isFile_eq_true.2 ⟨place, content, hplace, hfile⟩
  have hread := FileTree.readText_of_file hplace hfile
  rw [htext] at hread
  unfold existingFile
  rw [hthere, hread]
  rfl

/-- Where no file is, none is found. -/
theorem existingFile_of_not_file (h : t.isFile (folder.join location) = .ok false) :
    existingFile t folder location = .ok none := by
  unfold existingFile
  rw [h]
  rfl

/-- Nothing is found where nothing is. -/
theorem existingFile_of_free {place : Place} (hplace : t.locate (folder.join location) = .ok place)
    (hnone : t.at? place = none) : existingFile t folder location = .ok none := by
  refine existingFile_of_not_file ?_
  simp [FileTree.isFile, FileTree.get?, hplace, hnone, Except.map]

/-- What is found where something is asked for. -/
theorem of_existingFile {found : Option (String × String)}
    (h : existingFile t folder location = .ok found) :
    (t.isFile (folder.join location) = .ok false ∧ found = none) ∨
      ∃ text, t.isFile (folder.join location) = .ok true ∧
        t.readText (folder.join location) = .ok text ∧ found = some (location, text) := by
  unfold existingFile at h
  obtain ⟨isThere, hthere, h⟩ := Outcome.of_bind_eq_ok h
  have hisfile := Outcome.of_mapError_eq_ok hthere
  cases isThere with
  | false =>
    cases h
    exact Or.inl ⟨hisfile, rfl⟩
  | true =>
    obtain ⟨text, htext, h⟩ := Outcome.of_bind_eq_ok h
    cases h
    exact Or.inr ⟨text, hisfile, Outcome.of_mapError_eq_ok htext, rfl⟩

/-! ### Files of locations -/

/-- Files are read for no other locations than those that are asked for. -/
theorem lookup_existingFiles_of_not_mem {asked : List String} {found : List (String × String)}
    (h : existingFiles t folder asked = .ok found) (hother : location ∉ asked) :
    found.lookup location = none := by
  obtain ⟨all, hall, rfl⟩ := Outcome.of_map_eq_ok h
  rw [List.lookup_eq_none_iff]
  intro file hfile
  obtain ⟨entry, hentry, rfl⟩ := List.mem_filterMap.1 hfile
  obtain ⟨other, hmem, hread⟩ := Outcome.exists_of_mem_mapM hall hentry
  rcases of_existingFile hread with ⟨-, hnone⟩ | ⟨text, -, -, hsome⟩
  · cases hnone
  · cases hsome
    have hne : location ≠ other := by
      rintro rfl
      exact hother hmem
    simpa using hne

/-- **What is looked up among the files that were read is what was found at its location.** -/
theorem existingFile_of_existingFiles {asked : List String} {found : List (String × String)}
    (h : existingFiles t folder asked = .ok found) (hmem : location ∈ asked) :
    existingFile t folder location = .ok ((found.lookup location).map (location, ·)) := by
  obtain ⟨all, hall, rfl⟩ := Outcome.of_map_eq_ok h
  induction asked generalizing all with
  | nil => cases hmem
  | cons first asked ih =>
    rw [List.mapM_cons] at hall
    obtain ⟨here, hhere, hall⟩ := Outcome.of_bind_eq_ok hall
    obtain ⟨rest, hrest, hall⟩ := Outcome.of_bind_eq_ok hall
    cases hall
    have hfiles : existingFiles t folder asked = .ok (rest.filterMap id) := by
      rw [existingFiles, hrest]
      rfl
    by_cases hsame : location = first
    · subst hsame
      rcases of_existingFile hhere with ⟨hnot, rfl⟩ | ⟨text, -, -, rfl⟩
      · by_cases hagain : location ∈ asked
        · exact ih hagain rest hrest hfiles
        · rw [List.filterMap_cons, id, lookup_existingFiles_of_not_mem hfiles hagain]
          exact hhere
      · rw [hhere, List.filterMap_cons, id]
        simp
    · have hlater : location ∈ asked := (List.mem_cons.1 hmem).resolve_left hsame
      rw [ih hlater rest hrest hfiles]
      rcases of_existingFile hhere with ⟨-, rfl⟩ | ⟨text, -, -, rfl⟩
      · rw [List.filterMap_cons, id]
      · rw [List.filterMap_cons, id, List.lookup_cons, beq_false_of_ne hsame]

theorem lookup_existingFiles_of_mem {asked : List String} {found : List (String × String)}
    (h : existingFiles t folder asked = .ok found) (hmem : location ∈ asked)
    {here : Option (String × String)} (hhere : existingFile t folder location = .ok here) :
    found.lookup location = here.map (·.2) := by
  rw [existingFile_of_existingFiles h hmem] at hhere
  cases hhere
  cases found.lookup location <;> rfl

theorem exists_existingFiles {asked : List String}
    (h : ∀ location ∈ asked, ∃ found, existingFile t folder location = .ok found) :
    ∃ found, existingFiles t folder asked = .ok found := by
  obtain ⟨all, hall⟩ := Outcome.exists_mapM h
  refine ⟨all.filterMap id, ?_⟩
  rw [existingFiles, hall]
  rfl

/-- Files that a former build left are looked up where they are asked for only. -/
theorem lookup_formerFiles {former : Option (FileTree × Path)} {asked : List String}
    {found : List (String × String)} (h : formerFiles former asked = .ok found)
    (hother : location ∉ asked) : found.lookup location = none := by
  cases former with
  | none =>
    cases h
    rfl
  | some place => exact lookup_existingFiles_of_not_mem h hother

end Workspace

/-! ### Putting together

Locations are put together one by one, so that there is one file for each, in the order in which
they first occur.
-/

namespace Artifact

variable {fragments : List Fragment} {existing : List (String × String)} {files : List File}

/-- What the file of one location is. -/
theorem of_assembleFile {location : String} {body : Option String} {fs : List Fragment} {f : File}
    (h : (assembleFile location body fs).outcome = .ok f) :
    f.location = location ∧ assembleBody location body fs = .ok f.body ∧
      f.replaceable = fs.all (·.replaceable) := by
  unfold assembleFile at h
  rw [Report.outcome_bind, Report.outcome_lift] at h
  obtain ⟨text, htext, h⟩ := Outcome.of_bind_eq_ok h
  rw [Report.outcome_bind] at h
  cases h
  exact ⟨rfl, htext, rfl⟩

/-- Every location that fragments are addressed to has its file. -/
theorem exists_file (h : (assemble fragments existing).outcome = .ok files) {location : String}
    (hmem : location ∈ locations fragments) :
    ∃ file ∈ files, file.location = location ∧
      assembleBody location (existing.lookup location) (addressedTo location fragments)
        = .ok file.body := by
  rw [assemble, Report.outcome_mapM] at h
  have hgroup : (location, addressedTo location fragments) ∈ groups fragments :=
    List.mem_map.2 ⟨location, hmem, rfl⟩
  obtain ⟨file, hfile, hone⟩ := Outcome.exists_result_of_mem h hgroup
  obtain ⟨hlocation, hbody, -⟩ := of_assembleFile hone
  exact ⟨file, hfile, hlocation, hbody⟩

/-- Every file is that of a location that fragments are addressed to. -/
theorem of_mem_assemble (h : (assemble fragments existing).outcome = .ok files) {f : File}
    (hf : f ∈ files) :
    f.location ∈ locations fragments ∧
      assembleBody f.location (existing.lookup f.location) (addressedTo f.location fragments)
        = .ok f.body ∧
      f.replaceable = (addressedTo f.location fragments).all (·.replaceable) := by
  rw [assemble, Report.outcome_mapM] at h
  obtain ⟨group, hgroup, hone⟩ := Outcome.exists_of_mem_mapM h hf
  obtain ⟨location, hlocation, rfl⟩ := List.mem_map.1 hgroup
  obtain ⟨rfl, hbody, hreplaceable⟩ := of_assembleFile hone
  exact ⟨hlocation, hbody, hreplaceable⟩

/-- The files stand in the order in which the fragments first turn to their locations. -/
theorem map_location_assemble (h : (assemble fragments existing).outcome = .ok files) :
    files.map (·.location) = locations fragments := by
  rw [assemble, Report.outcome_mapM] at h
  have hpicked : files.flatMap (fun f => [f.location])
      = (groups fragments).flatMap fun group => [group.1] :=
    Outcome.flatMap_of_mapM_eq_ok (fun _ _ _ hone => by rw [(of_assembleFile hone).1]) h
  rw [← List.map_eq_flatMap, ← List.map_eq_flatMap] at hpicked
  rw [hpicked, groups, List.map_map]
  exact List.map_id _

/-- No two files have one location. -/
theorem nodup_locations (h : (assemble fragments existing).outcome = .ok files) :
    (files.map (·.location)).Nodup := by
  rw [map_location_assemble h]
  exact Text.nodup_distinct _

/-- If every location has a body, then all files can be put together. -/
theorem exists_assemble
    (h : ∀ location ∈ locations fragments, ∃ body,
      assembleBody location (existing.lookup location) (addressedTo location fragments) =
        .ok body) :
    ∃ files, (assemble fragments existing).outcome = .ok files := by
  rw [assemble, Report.outcome_mapM]
  refine Outcome.exists_mapM fun group hgroup => ?_
  obtain ⟨location, hmem, rfl⟩ := List.mem_map.1 hgroup
  obtain ⟨body, hbody⟩ := h location hmem
  refine ⟨{ location, body, replaceable := (addressedTo location fragments).all (·.replaceable) },
    ?_⟩
  unfold assembleFile
  rw [Report.outcome_bind, Report.outcome_lift, hbody]
  rfl

end Artifact

end SchemaLoom
