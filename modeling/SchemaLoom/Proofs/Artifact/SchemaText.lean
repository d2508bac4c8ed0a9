/-
Texts that schema documents take.

A schema document is put together from texts: content is the text of a document, and an edit may
put in the text of a field.  No file comes of a text that is malformed.  It is reported when the
file is put together (`assembleBody_malformed`), whatever exists in its place.

The parser of an edit is told by what the edit puts its field into, an object type or an input
type; which of the two is known only when the definition is found.  So a text counts as that of a
field if either parser takes it (`IsFieldText`), and a fragment is malformed if neither does.
-/
import SchemaLoom.Proofs.Artifact.Interpretation
import SchemaLoom.Proofs.Sdl.Edit

namespace SchemaLoom

/-! ### Fields that are put in -/

namespace Sdl

variable {e : Edit} {text : String}

/-- The text of the field that an edit puts in. -/
def Edit.text? : Edit → Option String
  | .addField _ text | .replaceField _ _ text => some text
  | .removeField .. | .addDirectives .. | .removeDirective .. => none

/-- The text `text` is that of a document. -/
def IsDocumentText (text : String) : Prop := ∃ document, Document.parse text = .ok document

/-- The text `text` is a field of an object type or of an input type. -/
def IsFieldText (text : String) : Prop :=
  (∃ f, Field.parse text = .ok f) ∨ ∃ f, InputField.parse text = .ok f

instance decidableExistsOk {ε α : Type} (x : Except ε α) : Decidable (∃ a, x = .ok a) :=
  match x with
  | .error _ => isFalse fun ⟨_, h⟩ => nomatch h
  | .ok a => isTrue ⟨a, rfl⟩

instance (text : String) : Decidable (IsDocumentText text) :=
  inferInstanceAs (Decidable (∃ document, Document.parse text = .ok document))

instance (text : String) : Decidable (IsFieldText text) :=
  inferInstanceAs (Decidable (_ ∨ _))

section Member

variable {α : Type} [Member α]

theorem exists_parse_of_editMembers {ds : List Directive} {fields : List α}
    {edited : List Directive × List α} (htext : e.text? = some text)
    (h : editMembers e ds fields = .ok edited) : ∃ f : α, Member.parse text = .ok f := by
  cases e with
  | addField type field =>
    cases htext
    obtain ⟨f, hparse, -⟩ := Outcome.of_bind_eq_ok h
    exact ⟨f, hparse⟩
  | replaceField type name field =>
    cases htext
    obtain ⟨changed, hchange, -⟩ := Outcome.of_bind_eq_ok h
    obtain ⟨_, _, _, fs, -, -, -, hone, -⟩ := exists_split_of_changeField hchange
    obtain ⟨f, hparse, -⟩ := Outcome.of_bind_eq_ok hone
    exact ⟨f, hparse⟩
  | _ => cases htext

end Member

/-- What an edit puts into a definition is a field. -/
theorem isFieldText_of_edit_definition {d d' : Definition} (htext : e.text? = some text)
    (heditable : d.isEditable = true) (h : d.edit e = .ok d') : IsFieldText text := by
  cases d with
  | object body =>
    obtain ⟨_, hmembers, -⟩ := Outcome.of_bind_eq_ok h
    exact Or.inl (exists_parse_of_editMembers htext hmembers)
  | interface body =>
    obtain ⟨_, hmembers, -⟩ := Outcome.of_bind_eq_ok h
    exact Or.inl (exists_parse_of_editMembers htext hmembers)
  | input body =>
    obtain ⟨_, hmembers, -⟩ := Outcome.of_bind_eq_ok h
    exact Or.inr (exists_parse_of_editMembers htext hmembers)
  | _ => cases heditable

/-- **What an edit puts into a document is a field** (`IsFieldText`). -/
theorem isFieldText_of_edit {doc next : Document} (htext : e.text? = some text)
    (h : doc.edit e = .ok next) : IsFieldText text := by
  have hdefinitions : ∀ {ds ds' : List Definition}, editDefinitions e ds = .ok ds' →
      IsFieldText text := by
    intro ds ds' h
    induction ds generalizing ds' with
    | nil => cases h
    | cons d ds ih =>
      cases htarget : d.isTarget e.type with
      | true =>
        rw [editDefinitions_of_target htarget] at h
        obtain ⟨d', hedit, -⟩ := Outcome.of_map_eq_ok h
        exact isFieldText_of_edit_definition htext (Bool.and_eq_true _ _ ▸ htarget).1 hedit
      | false =>
        rw [editDefinitions_of_other htarget] at h
        obtain ⟨rest, hrest, -⟩ := Outcome.of_map_eq_ok h
        exact ih hrest
  obtain ⟨ds, hedited, -⟩ := Outcome.of_map_eq_ok h
  exact hdefinitions hedited

end Sdl

/-! ### Malformed texts

A fragment may hold two texts: one that it provides, which must be a document, and one in an edit,
which must be a field.
-/

namespace Artifact

variable {location : String} {fs : List Fragment} {f : Fragment}

/-- The text that a fragment has as its content. -/
def Fragment.contentText? (f : Fragment) : Option String :=
  match f.patch, f.payload with
  | none, .tree (.text text) => some text
  | _, _ => none

/-- The text of the field that a fragment puts in. -/
def Fragment.fieldText? (f : Fragment) : Option String :=
  match f.patch with
  | some (.sdl e) => e.text?
  | _ => none

/-- The fragment has a malformed text for a schema document: content that is no document, or a field
that is none. -/
def Fragment.IsMalformed (f : Fragment) : Prop :=
  (∃ s ∈ f.contentText?, ¬ Sdl.IsDocumentText s) ∨ ∃ s ∈ f.fieldText?, ¬ Sdl.IsFieldText s

instance (f : Fragment) : Decidable f.IsMalformed :=
  inferInstanceAs (Decidable (_ ∨ _))

theorem payload_of_contentText? {s : String} (h : s ∈ f.contentText?) :
    f.patch = none ∧ f.payload = .tree (.text s) := by
  unfold Fragment.contentText? at h
  split at h
  next hpatch hpayload =>
    cases h
    exact ⟨hpatch, hpayload⟩
  · cases h

theorem exists_patch_of_fieldText? {s : String} (h : s ∈ f.fieldText?) :
    ∃ e, f.patch = some (.sdl e) ∧ e.text? = some s := by
  unfold Fragment.fieldText? at h
  split at h
  next e hpatch => exact ⟨e, hpatch, h⟩
  · cases h

/-- Texts of documents can be added to any document. -/
theorem exists_foldlM_stepDocument (doc : Sdl.Document)
    (htexts : ∀ f ∈ fs, ∃ s ∈ f.contentText?, Sdl.IsDocumentText s) :
    ∃ last, fs.foldlM (stepDocument location) doc = .ok last := by
  induction fs generalizing doc with
  | nil => exact ⟨doc, rfl⟩
  | cons f fs ih =>
    rw [List.forall_mem_cons] at htexts
    obtain ⟨⟨s, htext, content, hparse⟩, hrest⟩ := htexts
    obtain ⟨hplain, hpayload⟩ := payload_of_contentText? htext
    have hstep : stepDocument location doc f = .ok (doc.append content.definitions) := by
      simp only [stepDocument, hplain, hpayload, Payload.definitions, parseSchema, hparse]
      rfl
    rw [List.foldlM_cons, hstep, Outcome.ok_bind]
    exact ih _ hrest

/-- **A document goes through no malformed text.** -/
theorem Drafts.not_isMalformed {doc last : Sdl.Document} (h : Drafts location doc fs last)
    (hf : f ∈ fs) : ¬ f.IsMalformed := by
  induction h with
  | done => cases hf
  | provide hplain hdefinitions _ ih =>
    rcases List.mem_cons.1 hf with rfl | hf
    · rintro (⟨s, hs, htext⟩ | ⟨s, hs, -⟩)
      · rw [(payload_of_contentText? hs).2] at hdefinitions
        obtain ⟨document, hparse, -⟩ := Outcome.of_map_eq_ok hdefinitions
        exact htext ⟨document, Outcome.of_mapError_eq_ok hparse⟩
      · obtain ⟨e, hpatch, -⟩ := exists_patch_of_fieldText? hs
        cases hplain.symm.trans hpatch
    · exact ih hf
  | edit hpatch hedit _ ih =>
    rcases List.mem_cons.1 hf with rfl | hf
    · rintro (⟨s, hs, -⟩ | ⟨s, hs, htext⟩)
      · cases hpatch.symm.trans (payload_of_contentText? hs).1
      · obtain ⟨e, hother, hfield⟩ := exists_patch_of_fieldText? hs
        cases hpatch.symm.trans hother
        exact htext (Sdl.isFieldText_of_edit hfield hedit)
    · exact ih hf

/-! ### Faults -/

end Artifact

/-- The fault is one that is reported of a schema document: a malformed text, or a fragment that
does not fit. -/
def Fault.IsOfDocument : Fault → Prop
  | .malformed .. | .badEdit _ | .misplacedEdit .. | .unsupportedContent .. => True
  | _ => False

namespace Artifact

variable {location : String} {existing : Option String} {fs : List Fragment} {fault : Fault}

theorem isOfDocument_of_parseSchema {text : String} (h : parseSchema location text = .error fault) :
    fault.IsOfDocument := by
  obtain ⟨_, -, rfl⟩ := Outcome.of_mapError_eq_error h
  trivial

theorem isOfDocument_of_definitions {payload : Payload}
    (h : payload.definitions location = .error fault) : fault.IsOfDocument := by
  unfold Payload.definitions at h
  split at h
  · exact isOfDocument_of_parseSchema (Outcome.of_map_eq_error h)
  · cases h
    trivial
  · cases h
  · cases h

theorem isOfDocument_of_stepDocument {doc : Sdl.Document} {f : Fragment}
    (h : stepDocument location doc f = .error fault) : fault.IsOfDocument := by
  unfold stepDocument at h
  split at h
  · rcases Outcome.of_bind_eq_error h with hdefinitions | ⟨ds, -, h⟩
    · exact isOfDocument_of_definitions hdefinitions
    · cases h
  · obtain ⟨_, -, rfl⟩ := Outcome.of_mapError_eq_error h
    trivial
  · cases h
    trivial

/-- Whatever is wrong with a schema document is reported as such. -/
theorem isOfDocument_of_assembleDocument
    (h : assembleDocument location existing fs = .error fault) :
    fault.IsOfDocument := by
  rcases Outcome.of_bind_eq_error h with hstart | ⟨start, -, h⟩
  · cases existing with
    | none => cases hstart
    | some text => exact isOfDocument_of_parseSchema hstart
  · obtain ⟨f, -, doc, hstep⟩ := Outcome.exists_of_foldlM_eq_error h
    exact isOfDocument_of_stepDocument hstep

/-- **A malformed text is reported when `assembleBody` puts the schema document together.** -/
theorem assembleBody_malformed (hmedium : medium location = .sdl) {f : Fragment} (hf : f ∈ fs)
    (hmalformed : f.IsMalformed) (existing : Option String) :
    ∃ fault, assembleBody location existing fs = .error fault ∧ fault.IsOfDocument := by
  cases hbody : assembleBody location existing fs with
  | ok body =>
    cases makes_of_assembleBody hbody with
    | text htext => exact absurd (htext.symm.trans hmedium) (by decide)
    | structured hstructured _ _ _ => exact absurd (hstructured.symm.trans hmedium) (by decide)
    | sdl _ _ hdrafts => exact absurd hmalformed (hdrafts.not_isMalformed hf)
  | error fault =>
    unfold assembleBody at hbody
    rw [hmedium] at hbody
    exact ⟨fault, rfl, isOfDocument_of_assembleDocument (Outcome.of_map_eq_error hbody)⟩

/-- No files come of fragments one of which has a malformed text for its schema document. -/
theorem assemble_malformed {f : Fragment} (hf : f ∈ fs) (hmedium : medium f.location = .sdl)
    (hmalformed : f.IsMalformed) (existing : List (String × String)) (files : List File) :
    (assemble fs existing).outcome ≠ .ok files := by
  intro hfiles
  have hmem : f.location ∈ locations fs := by
    rw [locations, Text.mem_distinct]
    exact List.mem_map_of_mem hf
  obtain ⟨file, -, -, hbody⟩ := exists_file hfiles hmem
  have hhere : f ∈ addressedTo f.location fs := List.mem_filter.2 ⟨hf, by simp⟩
  obtain ⟨fault, hfault, -⟩ :=
    assembleBody_malformed hmedium hhere hmalformed (existing.lookup f.location)
  cases hbody.symm.trans hfault

end Artifact

end SchemaLoom
