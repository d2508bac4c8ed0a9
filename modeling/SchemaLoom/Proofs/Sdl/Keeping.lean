/-
What a published document keeps of its source.

Publishing appends the definitions of the source to nothing and edits what comes of it.  The
first step loses definitions exactly if a key occurs twice.  The second reaches object and input
types, as it should, unless an interface of the same name stands in front of them
(`SparesInterfaces`).

`Told` is the run of all edits told definition by definition.  By `keeps_iff` the document is
kept exactly if no key occurs twice and the edits spare interfaces.
-/
import Mathlib.Data.List.Forall2
import SchemaLoom.Proofs.Sdl.Append
import SchemaLoom.Proofs.Sdl.Edit

namespace SchemaLoom.Sdl

/-- Objects and input types are meant to be edited before they are published. -/
def Definition.isPublishedEdited : Definition → Bool
  | .object _ | .input _ => true
  | _ => false

/-- The definition `d'` may take the place of `d`: it has the same kind and name and, unless these
are of an object or input type, is the same. -/
def Definition.Replaces (d d' : Definition) : Prop :=
  d'.key = d.key ∧ (d.isPublishedEdited = false → d' = d)

/-- The document `published` keeps all definitions of `source`, in their order. -/
def Document.Keeps (source published : Document) : Prop :=
  List.Forall₂ Definition.Replaces source.definitions published.definitions

theorem keys_of_replaces {ds ds' : List Definition} (h : List.Forall₂ Definition.Replaces ds ds') :
    ds'.map (·.key) = ds.map (·.key) := by
  induction h with
  | nil => rfl
  | cons hsame _ ih => rw [List.map_cons, List.map_cons, hsame.1, ih]

theorem Definition.replaces_refl (d : Definition) : d.Replaces d := ⟨rfl, fun _ => rfl⟩

theorem Document.keeps_refl (doc : Document) : doc.Keeps doc :=
  List.forall₂_same.2 fun d _ => d.replaces_refl

/-! ### Edits, definition by definition

`Told` follows the definitions in order, with the edits that none of those in front has taken.
-/

/-- What edits make of definitions, each of which is reached by the edits of its name that none
before it has taken. -/
inductive Told : List Edit → List Definition → List Definition → Prop where
  | nil {edits : List Edit} : Told edits [] []
  | target {edits : List Edit} {name : String} {d d' : Definition} {ds ds' : List Definition}
    (htarget : d.isTarget name = true) (hedit : d.editAll (editsOf name edits) = .ok d')
    (hrest : Told (editsBeyond name edits) ds ds') : Told edits (d :: ds) (d' :: ds')
  | plain {edits : List Edit} {d : Definition} {ds ds' : List Definition}
    (hplain : d.isEditable = false) (hrest : Told edits ds ds') : Told edits (d :: ds) (d :: ds')

theorem Definition.exists_isTarget {d : Definition} (h : d.isEditable = true) :
    ∃ name, d.isTarget name = true := by
  cases d with
  | object body => exact ⟨body.name, by simp [isTarget, isEditable, name?]⟩
  | interface body => exact ⟨body.name, by simp [isTarget, isEditable, name?]⟩
  | input body => exact ⟨body.name, by simp [isTarget, isEditable, name?]⟩
  | _ => cases h

theorem told_of_editAll {edits : List Edit} {ds ds' : List Definition}
    (h : editAll edits ds = .ok ds') : Told edits ds ds' := by
  induction ds generalizing edits ds' with
  | nil =>
    obtain ⟨-, rfl⟩ := editAll_of_nil h
    exact .nil
  | cons d ds ih =>
    cases heditable : d.isEditable with
    | true =>
      obtain ⟨name, htarget⟩ := Definition.exists_isTarget heditable
      obtain ⟨d', rest, rfl, hedit, hrest⟩ := (editAll_cons_of_target htarget).1 h
      exact .target htarget hedit (ih hrest)
    | false =>
      obtain ⟨rest, rfl, hrest⟩ := (editAll_cons_of_plain heditable).1 h
      exact .plain heditable (ih hrest)

/-! ### Interfaces

The first definition with the name of an object or input type gets the edits of this name.  If it
is an interface, they must leave it as it is.
-/

/-- Every interface that the edits reach is left as it is.  Such an interface has the name of an
object or input type and stands in front of it. -/
def SparesInterfaces (edits : List Edit) (ds : List Definition) : Prop :=
  ∀ body : ObjectType, ds.find? (Definition.isTarget body.name) = some (.interface body) →
    (Definition.interface body).editAll (editsOf body.name edits) = .ok (.interface body)

/-- Where there are no interfaces, none is reached. -/
theorem sparesInterfaces_of_none {ds : List Definition} (h : ∀ d ∈ ds, d.kind ≠ .interface)
    (edits : List Edit) : SparesInterfaces edits ds := by
  intro body hfound
  exact absurd rfl (h _ (List.mem_of_find?_eq_some hfound))

theorem editsOf_editsBeyond_self (name : String) (edits : List Edit) :
    editsOf name (editsBeyond name edits) = [] := by
  simp [editsOf, editsBeyond, List.filter_filter]

theorem editsOf_editsBeyond_of_ne {name other : String} (h : other ≠ name) (edits : List Edit) :
    editsOf other (editsBeyond name edits) = editsOf other edits := by
  simp only [editsOf, editsBeyond, List.filter_filter]
  refine List.filter_congr fun e _ => ?_
  by_cases htype : e.type = other
  · simp [htype, h]
  · simp [htype]

theorem isTarget_name {d : Definition} {name : String} (h : d.isTarget name = true) :
    d.name? = some name := by
  simp only [Definition.isTarget, Bool.and_eq_true, decide_eq_true_eq] at h
  exact h.2

theorem isTarget_eq_false_of_ne {d : Definition} {name other : String}
    (htarget : d.isTarget name = true) (h : other ≠ name) : d.isTarget other = false := by
  simp only [Definition.isTarget, Bool.and_eq_true, decide_eq_true_eq] at htarget
  simp [Definition.isTarget, htarget.2, h.symm]

/-- Interfaces are spared if the first definition is, should it be one, and the others are by the
edits that do not reach it. -/
theorem sparesInterfaces_cons_of_target {edits : List Edit} {name : String} {d d' : Definition}
    {ds : List Definition} (htarget : d.isTarget name = true)
    (hedit : d.editAll (editsOf name edits) = .ok d') :
    SparesInterfaces edits (d :: ds) ↔
      (∀ body, d = .interface body → d' = d) ∧ SparesInterfaces (editsBeyond name edits) ds := by
  constructor
  · intro hspares
    constructor
    · rintro body rfl
      have hname : body.name = name := by simpa [Definition.name?] using isTarget_name htarget
      subst hname
      have hfound := hspares body (List.find?_cons_of_pos htarget)
      rw [hedit] at hfound
      exact Except.ok.inj hfound
    · intro body hfound
      by_cases hsame : body.name = name
      · rw [hsame, editsOf_editsBeyond_self]
        rfl
      · rw [editsOf_editsBeyond_of_ne hsame]
        refine hspares body ?_
        rw [List.find?_cons_of_neg (by simp [isTarget_eq_false_of_ne htarget hsame]), hfound]
  · rintro ⟨hhere, hrest⟩ body hfound
    by_cases hsame : body.name = name
    · rw [hsame, List.find?_cons_of_pos htarget] at hfound
      have hinterface : d = .interface body := Option.some.inj hfound
      have hkept := hhere body hinterface
      rw [hsame, ← hinterface, hedit, hkept]
    · rw [List.find?_cons_of_neg (by simp [isTarget_eq_false_of_ne htarget hsame])] at hfound
      have := hrest body hfound
      rwa [editsOf_editsBeyond_of_ne hsame] at this

/-- **Edits keep what they should exactly if they spare the interfaces that they reach
(`SparesInterfaces`).** -/
theorem Told.keeps_iff {edits : List Edit} {ds ds' : List Definition} (h : Told edits ds ds') :
    List.Forall₂ Definition.Replaces ds ds' ↔ SparesInterfaces edits ds := by
  induction h with
  | nil =>
    constructor
    · intro _ body hfound
      cases hfound
    · intro _
      exact List.Forall₂.nil
  | @target edits name d d' ds ds' htarget hedit hrest ih =>
    have hkey := Definition.key_editAll hedit
    rw [List.forall₂_cons, ih, sparesInterfaces_cons_of_target htarget hedit]
    refine and_congr_left fun _ => ?_
    constructor
    · rintro ⟨-, hsame⟩ body rfl
      exact hsame rfl
    · intro hsame
      refine ⟨hkey, fun hkind => ?_⟩
      cases d with
      | interface body => exact hsame body rfl
      | object _ => cases hkind
      | input _ => cases hkind
      | _ => cases htarget
  | @plain edits d ds ds' hplain hrest ih =>
    have hothers : SparesInterfaces edits (d :: ds) ↔ SparesInterfaces edits ds := by
      have hfind : ∀ name, (d :: ds).find? (Definition.isTarget name)
          = ds.find? (Definition.isTarget name) := fun name =>
        List.find?_cons_of_neg (by simp [Definition.isTarget, hplain])
      simp only [SparesInterfaces, hfind]
    rw [List.forall₂_cons, ih, hothers]
    exact and_iff_right d.replaces_refl

/-! ### Publishing -/

/-- **A document that is edited after being appended to nothing keeps its definitions exactly if no
key occurs twice and the edits spare interfaces.** -/
theorem keeps_iff {edits : List Edit} {source published : Document}
    (h : edits.foldlM Document.edit (Document.empty.append source.definitions) = .ok published) :
    source.Keeps published ↔
      (source.definitions.map (·.key)).Nodup ∧ SparesInterfaces edits source.definitions := by
  rw [foldlM_edit] at h
  obtain ⟨ds, hedited, rfl⟩ := Outcome.of_map_eq_ok h
  have hkeys : ds.map (·.key) = Text.distinct (source.definitions.map (·.key)) := by
    rw [keys_editAll hedited, keys_append_empty]
  have hkeeps : (source.definitions.map (·.key)).Nodup →
      (source.Keeps ⟨ds⟩ ↔ SparesInterfaces edits source.definitions) := by
    intro hnodup
    rw [append_of_nodup (by simpa [Document.empty] using hnodup)] at hedited
    exact (told_of_editAll hedited).keeps_iff
  constructor
  · intro hkept
    have hnodup : (source.definitions.map (·.key)).Nodup := by
      rw [← keys_of_replaces hkept, hkeys]
      exact Text.nodup_distinct _
    exact ⟨hnodup, (hkeeps hnodup).1 hkept⟩
  · rintro ⟨hnodup, hspares⟩
    exact (hkeeps hnodup).2 hspares

end SchemaLoom.Sdl
