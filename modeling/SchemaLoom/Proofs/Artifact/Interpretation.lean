/-
Which edits take effect.

A structured text takes edits of trees, a schema document edits of documents, and a mere text
takes none (`Medium.Interprets`).  What a structured text or a document goes through is described
here fragment by fragment, as a relation (`Grafts`, `Drafts`): each fragment either provides
content or is an edit that succeeds.  An edit of the other kind has no place in it, so no file
comes of it.

Mere texts are different: whatever edits are addressed to them is lost without a fault.  So edits
are taken everywhere exactly if none is addressed to a text.

The relations also serve the modules that follow what becomes of a document: they have the cases
of an assembly without its monad.
-/
import SchemaLoom.Proofs.Workspace.Files

namespace SchemaLoom.Artifact

/-- Edits of the kind of the patch can take effect in the medium. -/
inductive Medium.Interprets : Medium → Patch → Prop where
  | structured (patch : TreePatch) : Interprets .structured (.tree patch)
  | sdl (e : Sdl.Edit) : Interprets .sdl (.sdl e)

instance : (m : Medium) → (p : Patch) → Decidable (m.Interprets p)
  | .structured, .tree patch => isTrue (.structured patch)
  | .sdl, .sdl e => isTrue (.sdl e)
  | .structured, .sdl _ | .sdl, .tree _ | .text, _ => isFalse nofun

/-- The fragment is an edit of a kind that its structured text or its document does not take. -/
def Fragment.IsMisplaced (f : Fragment) : Prop :=
  medium f.location ≠ .text ∧ ∃ p ∈ f.patch, ¬ (medium f.location).Interprets p

instance (f : Fragment) : Decidable f.IsMisplaced :=
  inferInstanceAs (Decidable (_ ∧ _))

/-! ### Fragment by fragment

`Grafts` and `Drafts` are runs of a fold over trees and over documents, and `Makes` is what
becomes of one file.
-/

/-- What a structured text goes through: fragments provide trees, or edit the tree so far. -/
inductive Grafts : Draft → List Fragment → Draft → Prop where
  | done {draft : Draft} : Grafts draft [] draft
  | provide {draft last : Draft} {f : Fragment} {fs : List Fragment} (hplain : f.patch = none)
    (hrest : Grafts f.payload.draft fs last) : Grafts draft (f :: fs) last
  | edit {draft last : Draft} {f : Fragment} {fs : List Fragment} {patch : TreePatch}
      {next : Forest}
    (hpatch : f.patch = some (.tree patch)) (hedit : draft.toForest.patch patch = .ok next)
    (hrest : Grafts (.forest next) fs last) : Grafts draft (f :: fs) last

/-- What a schema document goes through: fragments provide definitions, or edit the document so
far. -/
inductive Drafts (location : String) : Sdl.Document → List Fragment → Sdl.Document → Prop where
  | done {doc : Sdl.Document} : Drafts location doc [] doc
  | provide {doc last : Sdl.Document} {f : Fragment} {fs : List Fragment}
    {ds : List Sdl.Definition} (hplain : f.patch = none)
    (hdefinitions : f.payload.definitions location = .ok ds)
    (hrest : Drafts location (doc.append ds) fs last) : Drafts location doc (f :: fs) last
  | edit {doc next last : Sdl.Document} {f : Fragment} {fs : List Fragment} {e : Sdl.Edit}
    (hpatch : f.patch = some (.sdl e)) (hedit : doc.edit e = .ok next)
    (hrest : Drafts location next fs last) : Drafts location doc (f :: fs) last

/-- What fragments make of a file.  Of edits that are addressed to a mere text nothing is seen. -/
inductive Makes (location : String) (existing : Option String) (fs : List Fragment) :
    String → Prop where
  | text (hmedium : medium location = .text) :
    Makes location existing fs (assembleText (fs.map fun f => { f with patch := none }))
  | structured {start : Forest} {draft : Draft} {body : String}
    (hmedium : medium location = .structured) (hstart : startTree location existing = .ok start)
    (hgrafts : Grafts (.forest start) fs draft) (hbody : draft.render = .ok body) :
    Makes location existing fs body
  | sdl {start doc : Sdl.Document} (hmedium : medium location = .sdl)
    (hstart : startDocument location existing = .ok start)
    (hdrafts : Drafts location start fs doc) :
    Makes location existing fs doc.render

variable {location : String} {existing : Option String} {fs : List Fragment}

theorem grafts_of_foldlM {draft last : Draft}
    (h : fs.foldlM (stepTree location) draft = .ok last) : Grafts draft fs last := by
  induction fs generalizing draft with
  | nil =>
    cases h
    exact .done
  | cons f fs ih =>
    rw [List.foldlM_cons] at h
    obtain ⟨next, hnext, h⟩ := Outcome.of_bind_eq_ok h
    unfold stepTree at hnext
    split at hnext
    next hplain =>
      cases hnext
      exact .provide hplain (ih h)
    next patch hpatch =>
      obtain ⟨forest, hforest, rfl⟩ := Outcome.of_map_eq_ok hnext
      exact .edit hpatch (Outcome.of_mapError_eq_ok hforest) (ih h)
    · cases hnext

theorem drafts_of_foldlM {doc last : Sdl.Document}
    (h : fs.foldlM (stepDocument location) doc = .ok last) : Drafts location doc fs last := by
  induction fs generalizing doc with
  | nil =>
    cases h
    exact .done
  | cons f fs ih =>
    rw [List.foldlM_cons] at h
    obtain ⟨next, hnext, h⟩ := Outcome.of_bind_eq_ok h
    unfold stepDocument at hnext
    split at hnext
    next hplain =>
      obtain ⟨ds, hdefinitions, hnext⟩ := Outcome.of_bind_eq_ok hnext
      cases hnext
      exact .provide hplain hdefinitions (ih h)
    next e hpatch => exact .edit hpatch (Outcome.of_mapError_eq_ok hnext) (ih h)
    · cases hnext

/-- **A file is made by its fragments, one after the other**: `assembleBody` returns nothing that
they do not make. -/
theorem makes_of_assembleBody {body : String} (h : assembleBody location existing fs = .ok body) :
    Makes location existing fs body := by
  unfold assembleBody at h
  cases hmedium : medium location with
  | text =>
    rw [hmedium] at h
    cases h
    have hsame : assembleText fs = assembleText (fs.map fun f => { f with patch := none }) := by
      rw [assembleText, assembleText, List.filterMap_map]
      rfl
    rw [hsame]
    exact .text hmedium
  | structured =>
    rw [hmedium] at h
    obtain ⟨start, hstart, h⟩ := Outcome.of_bind_eq_ok h
    obtain ⟨draft, hdraft, hbody⟩ := Outcome.of_bind_eq_ok h
    exact .structured hmedium hstart (grafts_of_foldlM hdraft) hbody
  | sdl =>
    rw [hmedium] at h
    obtain ⟨doc, hdoc, rfl⟩ := Outcome.of_map_eq_ok h
    obtain ⟨start, hstart, hdoc⟩ := Outcome.of_bind_eq_ok hdoc
    exact .sdl hmedium hstart (drafts_of_foldlM hdoc)

/-! ### Edits out of place

The first fragment that fails is reported.  That is the one out of place only if all others are in
order, which is said by the fragments without it going through.
-/

theorem Grafts.tree_of_patch {draft last : Draft} (h : Grafts draft fs last) {f : Fragment}
    (hf : f ∈ fs) {p : Patch} (hp : p ∈ f.patch) : Medium.structured.Interprets p := by
  induction h with
  | done => cases hf
  | provide hplain _ ih =>
    rcases List.mem_cons.1 hf with rfl | hf
    · rw [hplain] at hp
      cases hp
    · exact ih hf
  | edit hpatch _ _ ih =>
    rcases List.mem_cons.1 hf with rfl | hf
    · rw [hpatch] at hp
      cases hp
      exact .structured _
    · exact ih hf

theorem Drafts.sdl_of_patch {doc last : Sdl.Document} (h : Drafts location doc fs last)
    {f : Fragment} (hf : f ∈ fs) {p : Patch} (hp : p ∈ f.patch) : Medium.sdl.Interprets p := by
  induction h with
  | done => cases hf
  | provide hplain _ _ ih =>
    rcases List.mem_cons.1 hf with rfl | hf
    · rw [hplain] at hp
      cases hp
    · exact ih hf
  | edit hpatch _ _ ih =>
    rcases List.mem_cons.1 hf with rfl | hf
    · rw [hpatch] at hp
      cases hp
      exact .sdl _
    · exact ih hf

/-- Nothing is made of a fragment that is out of place. -/
theorem Makes.not_isMisplaced {body : String} (h : Makes location existing fs body) {f : Fragment}
    (hf : f ∈ fs) (hhere : f.location = location) : ¬ f.IsMisplaced := by
  rintro ⟨hnottext, p, hp, hnot⟩
  rw [hhere] at hnottext hnot
  cases h with
  | text hmedium => exact hnottext hmedium
  | structured hmedium _ hgrafts _ => exact hnot (hmedium ▸ hgrafts.tree_of_patch hf hp)
  | sdl hmedium _ hdrafts => exact hnot (hmedium ▸ hdrafts.sdl_of_patch hf hp)

/-- A fault about an edit that is out of place. -/
def IsMisplacement (fs : List Fragment) (fault : Fault) : Prop :=
  ∃ f ∈ fs, f.IsMisplaced ∧ ∃ p ∈ f.patch, ∃ destination,
    fault = .misplacedEdit f.location p.text destination

theorem IsMisplacement.mono {fault : Fault} {more : List Fragment} (h : IsMisplacement fs fault)
    (hsub : fs ⊆ more) : IsMisplacement more fault := by
  obtain ⟨f, hf, hrest⟩ := h
  exact ⟨f, hsub hf, hrest⟩

/-- Steps that refuse what is out of place refuse the first of several fragments that is, if the
others are in order. -/
theorem foldlM_misplaced {α : Type} {step : α → Fragment → Except Fault α}
    (hstep : ∀ a, ∀ f ∈ fs, f.IsMisplaced → ∃ p ∈ f.patch, ∃ destination,
      step a f = .error (.misplacedEdit f.location p.text destination))
    {a last : α} (hothers : (fs.filter fun f => ¬ f.IsMisplaced).foldlM step a = .ok last)
    (hsome : ∃ f ∈ fs, f.IsMisplaced) :
    ∃ fault, fs.foldlM step a = .error fault ∧ IsMisplacement fs fault := by
  induction fs generalizing a with
  | nil =>
    obtain ⟨f, hf, -⟩ := hsome
    cases hf
  | cons f fs ih =>
    rw [List.foldlM_cons]
    by_cases hhere : f.IsMisplaced
    · obtain ⟨p, hp, destination, hfault⟩ := hstep a f List.mem_cons_self hhere
      exact ⟨_, by rw [hfault]; rfl, f, List.mem_cons_self, hhere, p, hp, destination, rfl⟩
    · rw [List.filter_cons_of_pos (by simpa using hhere), List.foldlM_cons] at hothers
      obtain ⟨next, hnext, hothers⟩ := Outcome.of_bind_eq_ok hothers
      have hlater : ∃ g ∈ fs, g.IsMisplaced := by
        obtain ⟨g, hg, hmisplaced⟩ := hsome
        rcases List.mem_cons.1 hg with rfl | hg
        · exact absurd hmisplaced hhere
        · exact ⟨g, hg, hmisplaced⟩
      obtain ⟨fault, hfault, habout⟩ :=
        ih (fun b g hg => hstep b g (List.mem_cons_of_mem f hg)) hothers hlater
      refine ⟨fault, ?_, habout.mono (List.subset_cons_self f fs)⟩
      rw [hnext]
      exact hfault

theorem stepTree_misplaced {f : Fragment} (hmedium : medium location = .structured)
    (hhere : f.location = location) (h : f.IsMisplaced) (draft : Draft) :
    ∃ p ∈ f.patch, ∃ destination,
      stepTree location draft f = .error (.misplacedEdit f.location p.text destination) := by
  obtain ⟨-, p, hp, hnot⟩ := h
  rw [hhere, hmedium] at hnot
  cases p with
  | tree patch => exact absurd (.structured patch) hnot
  | sdl e =>
    refine ⟨_, hp, "a YAML", ?_⟩
    rw [stepTree, Option.mem_def.1 hp, hhere]

theorem stepDocument_misplaced {f : Fragment} (hmedium : medium location = .sdl)
    (hhere : f.location = location) (h : f.IsMisplaced) (doc : Sdl.Document) :
    ∃ p ∈ f.patch, ∃ destination,
      stepDocument location doc f = .error (.misplacedEdit f.location p.text destination) := by
  obtain ⟨-, p, hp, hnot⟩ := h
  rw [hhere, hmedium] at hnot
  cases p with
  | tree patch =>
    refine ⟨_, hp, "an SDL", ?_⟩
    rw [stepDocument, Option.mem_def.1 hp, hhere]
  | sdl e => exact absurd (.sdl e) hnot

/-- **If the other fragments of a location are in order, then an edit that is out of place is what
is reported** (`IsMisplacement`). -/
theorem assembleBody_misplaced (hhere : ∀ f ∈ fs, f.location = location) {body : String}
    (hothers : assembleBody location existing (fs.filter fun f => ¬ f.IsMisplaced) = .ok body)
    (hsome : ∃ f ∈ fs, f.IsMisplaced) :
    ∃ fault, assembleBody location existing fs = .error fault ∧ IsMisplacement fs fault := by
  unfold assembleBody at hothers ⊢
  cases hmedium : medium location with
  | text =>
    obtain ⟨f, hf, hnottext, -⟩ := hsome
    exact absurd (hhere f hf ▸ hmedium) hnottext
  | structured =>
    rw [hmedium] at hothers
    obtain ⟨start, hstart, hothers⟩ := Outcome.of_bind_eq_ok hothers
    obtain ⟨last, hothers, -⟩ := Outcome.of_bind_eq_ok hothers
    obtain ⟨fault, hfault, habout⟩ := foldlM_misplaced
      (fun draft f hf h => stepTree_misplaced hmedium (hhere f hf) h draft) hothers hsome
    refine ⟨fault, ?_, habout⟩
    dsimp only
    rw [assembleTree, hstart, Outcome.ok_bind, hfault, Outcome.error_bind]
  | sdl =>
    rw [hmedium] at hothers
    obtain ⟨last, hothers, -⟩ := Outcome.of_map_eq_ok hothers
    obtain ⟨start, hstart, hothers⟩ := Outcome.of_bind_eq_ok hothers
    obtain ⟨fault, hfault, habout⟩ := foldlM_misplaced
      (fun doc f hf h => stepDocument_misplaced hmedium (hhere f hf) h doc) hothers hsome
    refine ⟨fault, ?_, habout⟩
    dsimp only
    rw [assembleDocument, hstart, Outcome.ok_bind, hfault]
    rfl

/-! ### Streams -/

theorem outcome_assembleFile (location : String) (existing : Option String) (fs : List Fragment) :
    (assembleFile location existing fs).outcome
      = (assembleBody location existing fs).map
          fun body => { location, body, replaceable := fs.all (·.replaceable) } := by
  unfold assembleFile
  rw [Report.outcome_bind, Report.outcome_lift]
  cases assembleBody location existing fs <;> rfl

/-- The fragments of a stream that are in their places. -/
def placed (fs : List Fragment) : List Fragment := fs.filter fun f => ¬ f.IsMisplaced

theorem mem_addressedTo {f : Fragment} (hf : f ∈ fs) :
    f.location ∈ locations fs ∧ f ∈ addressedTo f.location fs := by
  rw [locations, Text.mem_distinct]
  exact ⟨List.mem_map_of_mem hf, List.mem_filter.2 ⟨hf, by simp⟩⟩

theorem location_of_mem_addressedTo {f : Fragment} (hf : f ∈ addressedTo location fs) :
    f ∈ fs ∧ f.location = location := by
  simpa [addressedTo] using hf

/-- The file of a location with fragments out of place is refused because of one of them, if the
others are in order. -/
theorem assembleFile_misplaced {body : String}
    (hothers : assembleBody location existing (placed (addressedTo location fs)) = .ok body)
    (hsome : ∃ f ∈ addressedTo location fs, f.IsMisplaced) :
    ∃ fault, (assembleFile location existing (addressedTo location fs)).outcome = .error fault ∧
      IsMisplacement fs fault := by
  obtain ⟨fault, hfault, habout⟩ :=
    assembleBody_misplaced (fun f hf => (location_of_mem_addressedTo hf).2) hothers hsome
  refine ⟨fault, ?_, habout.mono fun f hf => (location_of_mem_addressedTo hf).1⟩
  rw [outcome_assembleFile, hfault]
  rfl

/-- **If all else is in order, a stream is refused because of an edit that is out of place.** -/
theorem assemble_misplaced {existing : List (String × String)}
    (hothers : ∀ location ∈ locations fs, ∃ body,
      assembleBody location (existing.lookup location) (placed (addressedTo location fs)) =
        .ok body)
    (hsome : ∃ f ∈ fs, f.IsMisplaced) :
    ∃ fault, (assemble fs existing).outcome = .error fault ∧ IsMisplacement fs fault := by
  rw [assemble, Report.outcome_mapM]
  refine Outcome.exists_fault_of_mapM ?_ ?_
  · intro group hgroup
    obtain ⟨location, hlocation, rfl⟩ := List.mem_map.1 hgroup
    obtain ⟨body, hbody⟩ := hothers location hlocation
    by_cases hmisplaced : ∃ f ∈ addressedTo location fs, f.IsMisplaced
    · exact Or.inr (assembleFile_misplaced hbody hmisplaced)
    · have hall : placed (addressedTo location fs) = addressedTo location fs := by
        rw [placed, List.filter_eq_self]
        intro f hf
        have hnot : ¬ f.IsMisplaced := fun h => hmisplaced ⟨f, hf, h⟩
        simpa using hnot
      rw [hall] at hbody
      refine Or.inl ⟨⟨location, body, (addressedTo location fs).all (·.replaceable)⟩, ?_⟩
      rw [outcome_assembleFile, hbody]
      rfl
  · obtain ⟨f, hf, hmisplaced⟩ := hsome
    obtain ⟨hlocation, hmem⟩ := mem_addressedTo hf
    obtain ⟨body, hbody⟩ := hothers f.location hlocation
    obtain ⟨fault, hfault, -⟩ := assembleFile_misplaced hbody ⟨f, hmem, hmisplaced⟩
    exact ⟨(f.location, addressedTo f.location fs), List.mem_map.2 ⟨_, hlocation, rfl⟩, fault,
      hfault⟩

/-- **Where files come of a stream, every file is made by its fragments in their order (`Makes`).
All edits of the stream have taken effect exactly if none is addressed to a text: of such an edit
nothing is seen. An edit that its structured text or document does not take is a fault, and it is
the one reported if all else is in order.** -/
theorem assemble_interprets (fs : List Fragment) (existing : List (String × String)) :
    (∀ files, (assemble fs existing).outcome = .ok files →
      (∀ location ∈ locations fs, ∃ file ∈ files, file.location = location ∧
        Makes location (existing.lookup location) (addressedTo location fs) file.body) ∧
      ((∀ f ∈ fs, ∀ p ∈ f.patch, (medium f.location).Interprets p) ↔
        ∀ f ∈ fs, medium f.location = .text → f.patch = none)) ∧
    ((∃ f ∈ fs, f.IsMisplaced) → ∃ fault, (assemble fs existing).outcome = .error fault ∧
      ((∀ location ∈ locations fs, ∃ body, assembleBody location (existing.lookup location)
          (placed (addressedTo location fs)) = .ok body) →
        IsMisplacement fs fault)) := by
  have hmakes : ∀ files, (assemble fs existing).outcome = .ok files →
      ∀ location ∈ locations fs, ∃ file ∈ files, file.location = location ∧
        Makes location (existing.lookup location) (addressedTo location fs) file.body := by
    intro files hfiles location hlocation
    obtain ⟨file, hfile, hhere, hbody⟩ := exists_file hfiles hlocation
    exact ⟨file, hfile, hhere, makes_of_assembleBody hbody⟩
  -- A fragment that is misplaced would have stopped the fold of its file.
  have hplaced : ∀ files, (assemble fs existing).outcome = .ok files →
      ∀ f ∈ fs, ¬ f.IsMisplaced := by
    intro files hfiles f hf
    obtain ⟨hlocation, hmem⟩ := mem_addressedTo hf
    obtain ⟨file, -, -, hfile⟩ := hmakes files hfiles f.location hlocation
    exact hfile.not_isMisplaced hmem rfl
  refine ⟨fun files hfiles => ⟨hmakes files hfiles, ?_, ?_⟩, fun hsome => ?_⟩
  · intro hall f hf htext
    cases hpatch : f.patch with
    | none => rfl
    | some p =>
      have htaken := hall f hf p hpatch
      rw [htext] at htaken
      cases htaken
  · intro htexts f hf p hp
    have hnottext : medium f.location ≠ .text := by
      intro htext
      rw [htexts f hf htext] at hp
      cases hp
    exact Classical.byContradiction fun hnot => hplaced files hfiles f hf ⟨hnottext, p, hp, hnot⟩
  · cases houtcome : (assemble fs existing).outcome with
    | ok files =>
      obtain ⟨f, hf, hmisplaced⟩ := hsome
      exact absurd hmisplaced (hplaced files houtcome f hf)
    | error fault =>
      refine ⟨fault, rfl, fun hothers => ?_⟩
      obtain ⟨other, hother, habout⟩ := assemble_misplaced hothers hsome
      rw [hother] at houtcome
      cases houtcome
      exact habout

/-- A published schema whose file name makes it a mere text, and an edit of it. -/
def plainTextFragments : List Fragment :=
  [.ofText "schema/schema.txt" "type Query \x7b\n  a: Int @unique\n\x7d\n",
    .ofEdit "schema/schema.txt" (.removeDirective "Query" (some "a") "unique")]

/-- An edit that is addressed to a text is lost. -/
theorem plainTextFragments_not_interpreted :
    (∃ files, (assemble plainTextFragments []).outcome = .ok files) ∧
      ¬ ∀ f ∈ plainTextFragments, ∀ p ∈ f.patch, (medium f.location).Interprets p := by
  have hfiles : Outcome.Holds (assemble plainTextFragments []).outcome fun _ => True := by
    decide +kernel
  obtain ⟨files, hfiles, -⟩ := hfiles
  refine ⟨⟨files, hfiles⟩, fun hall => ?_⟩
  have htexts := (((assemble_interprets plainTextFragments []).1 files hfiles).2).1 hall
  have htext : medium "schema/schema.txt" = .text := by decide +kernel
  exact absurd (htexts _ (List.mem_cons_of_mem _ List.mem_cons_self) htext) nofun

end SchemaLoom.Artifact
