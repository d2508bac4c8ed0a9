/-
Assembling a file.

A document that nothing was there for before starts from the definitions of a text, of each key
the last, and is then edited (`assembleDocument_ofText`).  A mere text is not edited.

Put together once more, texts ignore the file that exists.  So do structured texts whose first
fragment provides a tree, as long as the file can be read at all (`assembleTree_again`).  A
schema document to which definitions are only appended has them in their places already
(`assembleDocument_again`).

So a file that is put together from what it was put together to stays the same, if its text is
read as what it was made from (`ReadsAs`) and its fragments do not build on each other beyond
that (`Renews`).  An edit of an existing document may well fail the second time.
-/
import SchemaLoom.Artifact.Assembly
import SchemaLoom.Proofs.Sdl.Append
import SchemaLoom.Proofs.Sdl.Edit

namespace SchemaLoom.Artifact

/-! ### A text and edits -/

/-- Fragments that edit a document do what the edits do. -/
theorem foldlM_stepDocument (location : String) (edits : List Sdl.Edit) (doc : Sdl.Document) :
    (edits.map (Fragment.ofEdit location)).foldlM (stepDocument location) doc
      = (edits.foldlM Sdl.Document.edit doc).mapError .badEdit := by
  induction edits generalizing doc with
  | nil => rfl
  | cons e edits ih =>
    rw [List.map_cons, List.foldlM_cons, List.foldlM_cons]
    show (doc.edit e).mapError Fault.badEdit >>= _ = _
    cases doc.edit e with
    | error fault => rfl
    | ok next => exact ih next

/-- **A text and edits behind it make the document of the text, edited by one after the other**
(`Document.edit`). -/
theorem assembleDocument_ofText {location text : String} {source : Sdl.Document}
    (htext : Sdl.Document.parse text = .ok source) (edits : List Sdl.Edit) :
    assembleDocument location none
        (Fragment.ofText location text :: edits.map (Fragment.ofEdit location))
      = (edits.foldlM Sdl.Document.edit (Sdl.Document.empty.append source.definitions)).mapError
          .badEdit := by
  have hsource : parseSchema location text = .ok source := by
    rw [parseSchema, htext]
    rfl
  have hstart : stepDocument location .empty (Fragment.ofText location text)
      = .ok (Sdl.Document.empty.append source.definitions) := by
    simp [stepDocument, Fragment.ofText, Payload.definitions, hsource]
  unfold assembleDocument startDocument
  rw [Outcome.ok_bind, List.foldlM_cons, hstart, Outcome.ok_bind, foldlM_stepDocument]

/-- A text is all that a text and edits behind it make where texts are put together. -/
theorem assembleText_ofText (location text : String) (edits : List Sdl.Edit) :
    assembleText (Fragment.ofText location text :: edits.map (Fragment.ofEdit location)) =
      text := by
  have htext : (Fragment.ofText location text).payload.display? = some text := rfl
  have hnone : (edits.map (Fragment.ofEdit location)).filterMap (·.payload.display?) = [] := by
    simp [Fragment.ofEdit, Payload.display?]
  rw [assembleText, List.filterMap_cons, htext, hnone]
  rfl

variable {location : String} {existing : Option String} {fs : List Fragment}

/-! ### Structured texts once more

The first build ended with a draft, and its text is read as that draft.  So the second build
starts where the first one ended, and a tree that is provided takes its place again.
-/

/-- The first of the fragments of `fs` for `location`, if there are any, provides content. -/
def Leads (location : String) (fs : List Fragment) : Prop :=
  ∀ f, (addressedTo location fs).head? = some f → f.patch = none

/-- Fragments that only provide definitions append them all. -/
theorem foldlM_append (hplain : ∀ f ∈ fs, f.patch = none) {doc result : Sdl.Document}
    (h : fs.foldlM (stepDocument location) doc = .ok result) :
    ∃ ds : List Sdl.Definition, result = doc.append ds ∧
      ∀ other, fs.foldlM (stepDocument location) other = .ok (other.append ds) := by
  induction fs generalizing doc with
  | nil =>
    cases h
    exact ⟨[], rfl, fun _ => rfl⟩
  | cons f fs ih =>
    have hstep : ∀ d, stepDocument location d f
        = (f.payload.definitions location) >>= fun ds => .ok (d.append ds) := by
      intro d
      rw [stepDocument, hplain f List.mem_cons_self]
      rfl
    rw [List.foldlM_cons, hstep] at h
    obtain ⟨next, hnext, h⟩ := Outcome.of_bind_eq_ok h
    obtain ⟨first, hfirst, hnext⟩ := Outcome.of_bind_eq_ok hnext
    cases hnext
    obtain ⟨rest, rfl, hall⟩ := ih (fun g hg => hplain g (List.mem_cons_of_mem f hg)) h
    refine ⟨first ++ rest, by simp [Sdl.Document.append, List.foldl_append], ?_⟩
    intro other
    rw [List.foldlM_cons, hstep, hfirst, Outcome.ok_bind, Outcome.ok_bind, hall]
    simp [Sdl.Document.append, List.foldl_append]

/-- The fragments `fs` make the same of the file of `location` that they made before: the first one
provides content and, if a schema document is there, all do. -/
structure Renews (location : String) (fs : List Fragment) : Prop where
  leads : Leads location fs
  plain : medium location = .sdl → ∀ f ∈ addressedTo location fs, f.patch = none

end SchemaLoom.Artifact
