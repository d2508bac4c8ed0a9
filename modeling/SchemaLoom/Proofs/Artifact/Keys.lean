/-
What an assembled document defines.

A schema document only grows while fragments are put into it: what they provide is appended, and
an edit changes no kind and no name.  So what it defines in the end is what it started with and
what fragments provide, each kind and name once (`Drafts.mem_keys_iff`, `Drafts.nodup_keys`).

What a fragment brings about besides lasts if nothing behind it undoes it.  That comes as two
ways of induction over the fragments: `Drafts.keep` for what holds at first, and `Drafts.settle`
for what one fragment brings about.

Appending replaces a definition of the same kind and name, so the content of a definition is that
of the last fragment that provides it.
-/
import Mathlib.Data.List.Nodup
import SchemaLoom.Proofs.Artifact.Interpretation
import SchemaLoom.Proofs.Sdl.First

namespace SchemaLoom

namespace Sdl.Document

variable {doc : Document} {k : DefinitionKind × Option String} {name : String}

/-- What a document defines, by kind and name. -/
def keys (doc : Document) : List (DefinitionKind × Option String) := doc.definitions.map (·.key)

theorem keys_nodup_append (h : doc.keys.Nodup) (ds : List Definition) :
    (doc.append ds).keys.Nodup := by
  rw [keys, keys_append, List.nodup_append]
  refine ⟨h, (Text.nodup_distinct _).filter _, ?_⟩
  rintro _ hold _ hnew rfl
  exact absurd hold (by simpa using (List.mem_filter.1 hnew).2)

theorem mem_keys_append {ds : List Definition} :
    k ∈ (doc.append ds).keys ↔ k ∈ doc.keys ∨ k ∈ ds.map (·.key) := by
  rw [keys, keys_append, List.mem_append, List.mem_filter, Text.mem_distinct, decide_eq_true_eq]
  exact ⟨fun h => h.imp id And.left,
    fun h => by by_cases hold : k ∈ doc.keys <;> simp_all [keys]⟩

theorem keys_edit {e : Edit} {next : Document} (h : doc.edit e = .ok next) :
    next.keys = doc.keys := by
  obtain ⟨ds, hds, rfl⟩ := Outcome.of_map_eq_ok h
  exact keys_editDefinitions hds

/-! ### Object types of a name -/

/-- The object types of a name. -/
def objectsNamed (doc : Document) (name : String) : List ObjectType :=
  doc.objects.filter fun o => o.name = name

theorem mem_keys_object : (.object, some name) ∈ doc.keys ↔ name ∈ doc.namesOf [.object] := by
  simp only [keys, namesOf, List.mem_map, List.mem_filterMap, List.mem_filter, Definition.key]
  constructor
  · rintro ⟨d, hd, hkey⟩
    obtain ⟨hkind, hname⟩ := Prod.mk.inj hkey
    exact ⟨d, ⟨hd, by simp [hkind]⟩, hname⟩
  · rintro ⟨d, ⟨hd, hkind⟩, hname⟩
    exact ⟨d, hd, by rw [hname, show d.kind = .object by simpa using hkind]⟩

theorem length_objectsNamed (doc : Document) (name : String) :
    (doc.objectsNamed name).length = doc.keys.count (.object, some name) := by
  unfold objectsNamed objects keys
  induction doc.definitions with
  | nil => rfl
  | cons d ds ih =>
    cases d with
    | object body =>
      by_cases hname : body.name = name
      · simp [Definition.key, Definition.kind, Definition.name?, hname, ih]
      · simp [Definition.key, Definition.kind, Definition.name?, hname, ih]
    | _ => simpa [Definition.key, Definition.kind] using ih

/-- At most one object type of a name is one if there is any. -/
theorem length_objectsNamed_of_le (h : (doc.objectsNamed name).length ≤ 1) :
    (doc.objectsNamed name).length = if name ∈ doc.namesOf [.object] then 1 else 0 := by
  rw [length_objectsNamed] at h ⊢
  split
  next hmem =>
    have hsome := List.count_pos_iff.2 (mem_keys_object.2 hmem)
    omega
  next hnot => exact List.count_eq_zero_of_not_mem fun hmem => hnot (mem_keys_object.1 hmem)

/-- **A document that defines nothing twice has one object type of a name, or none.** -/
theorem length_objectsNamed_of_nodup (h : doc.keys.Nodup) (name : String) :
    (doc.objectsNamed name).length = if name ∈ doc.namesOf [.object] then 1 else 0 := by
  refine length_objectsNamed_of_le ?_
  rw [length_objectsNamed]
  exact List.nodup_iff_count_le_one.1 h _

/-- The first type of a name is the only object type of it, if it is an object type and nothing is
defined twice. -/
theorem objectsNamed_of_type? {body : ObjectType} (hnodup : doc.keys.Nodup)
    (h : doc.type? name = some (.object body)) : doc.objectsNamed name = [body] := by
  have htarget := List.find?_some h
  simp only [Definition.isTarget, Bool.and_eq_true, decide_eq_true_eq] at htarget
  have hmem : body ∈ doc.objectsNamed name := by
    refine List.mem_filter.2 ⟨mem_objects.2 (List.mem_of_find?_eq_some h), ?_⟩
    exact decide_eq_true (Option.some.inj htarget.2)
  have hone : (doc.objectsNamed name).length ≤ 1 := by
    rw [length_objectsNamed_of_nodup hnodup]
    split <;> omega
  obtain ⟨only, honly⟩ :=
    List.length_eq_one_iff.1 (Nat.le_antisymm hone (List.length_pos_of_mem hmem))
  rw [honly, List.mem_singleton] at hmem
  rw [honly, hmem]

end Sdl.Document

namespace Artifact

open Sdl (Document Definition DefinitionKind)

variable {location name : String} {fs : List Fragment} {doc last : Document}

/-- The fragment `f` provides the definition `d` for `location`. -/
def Fragment.Provides (location : String) (f : Fragment) (d : Definition) : Prop :=
  f.patch = none ∧ ∃ ds, f.payload.definitions location = .ok ds ∧ d ∈ ds

/-- **What a document defines in the end is what it started with and what fragments provide.** -/
theorem Drafts.mem_keys_iff (h : Drafts location doc fs last) {k : DefinitionKind × Option String} :
    k ∈ last.keys ↔ k ∈ doc.keys ∨ ∃ f ∈ fs, ∃ d, f.Provides location d ∧ d.key = k := by
  induction h with
  | done => simp
  | @provide doc last f fs ds hplain hdefinitions _ ih =>
    have hhere : (∃ d, f.Provides location d ∧ d.key = k) ↔ k ∈ ds.map (·.key) := by
      simp [Fragment.Provides, hplain, hdefinitions]
    rw [ih, Document.mem_keys_append, List.exists_mem_cons_iff, hhere, or_assoc]
  | @edit doc next last f fs e hpatch hedit _ ih =>
    have hhere : ¬ ∃ d, f.Provides location d ∧ d.key = k := by
      simp [Fragment.Provides, hpatch]
    rw [ih, Document.keys_edit hedit, List.exists_mem_cons_iff, or_iff_right hhere]

/-- What is defined once is never defined twice. -/
theorem Drafts.nodup_keys (h : Drafts location doc fs last) (hnodup : doc.keys.Nodup) :
    last.keys.Nodup := by
  induction h with
  | done => exact hnodup
  | provide _ _ _ ih => exact ih (Document.keys_nodup_append hnodup _)
  | edit _ hedit _ ih => exact ih (Document.keys_edit hedit ▸ hnodup)

/-- Without edits, all definitions are those that were there or that fragments provide. -/
theorem Drafts.of_mem_definitions (h : Drafts location doc fs last)
    (hplain : ∀ f ∈ fs, f.patch = none) {d : Definition} (hd : d ∈ last.definitions) :
    d ∈ doc.definitions ∨ ∃ f ∈ fs, f.Provides location d := by
  induction h with
  | done => exact Or.inl hd
  | @provide doc last f fs ds hnone hdefinitions _ ih =>
    rcases ih (fun g hg => hplain g (List.mem_cons_of_mem f hg)) hd with hhere | ⟨g, hg, hgives⟩
    · rcases Sdl.mem_append hhere with hold | hnew
      · exact Or.inl hold
      · exact Or.inr ⟨f, List.mem_cons_self, hnone, ds, hdefinitions, hnew⟩
    · exact Or.inr ⟨g, List.mem_cons_of_mem f hg, hgives⟩
  | @edit doc next last f fs e hpatch _ _ _ =>
    rw [hplain f List.mem_cons_self] at hpatch
    cases hpatch

/-! ### What lasts

A property of a document is there from the start, or one fragment brings it about.  Either way it
is enough that the fragments behind leave it alone (`Drafts.keep`, `Drafts.settle`).
-/

theorem Drafts.exists_between (front : List Fragment) {rest : List Fragment}
    (h : Drafts location doc (front ++ rest) last) :
    ∃ mid, Drafts location doc front mid ∧ Drafts location mid rest last := by
  induction front generalizing doc with
  | nil => exact ⟨doc, .done, h⟩
  | cons f front ih =>
    rw [List.cons_append] at h
    cases h with
    | provide hplain hdefinitions hrest =>
      obtain ⟨mid, hbefore, hbehind⟩ := ih hrest
      exact ⟨mid, .provide hplain hdefinitions hbefore, hbehind⟩
    | edit hpatch hedit hrest =>
      obtain ⟨mid, hbefore, hbehind⟩ := ih hrest
      exact ⟨mid, .edit hpatch hedit hbefore, hbehind⟩

/-- **What outlasts every fragment holds in the end if it held at first**: the run form of a step
that `Drafts` makes. -/
theorem Drafts.keep {P : Document → Prop} (h : Drafts location doc fs last)
    (hkeep : ∀ f ∈ fs, ∀ mid next, Drafts location mid [f] next → P mid → P next) (hstart : P doc) :
    P last := by
  induction fs generalizing doc with
  | nil =>
    cases h
    exact hstart
  | cons f fs ih =>
    obtain ⟨mid, hfirst, hrest⟩ := exists_between [f] h
    exact ih hrest (fun g hg => hkeep g (List.mem_cons_of_mem f hg))
      (hkeep f List.mem_cons_self doc mid hfirst hstart)

/-- **What one fragment brings about, and all behind it leave alone, holds in the end.** Behind the
fragment, `Drafts.keep` carries it on. -/
theorem Drafts.settle {P : Document → Prop} {front rest : List Fragment} {f : Fragment}
    (h : Drafts location doc (front ++ f :: rest) last)
    (hhere : ∀ mid next, Drafts location mid [f] next → P next)
    (hkeep : ∀ g ∈ rest, ∀ mid next, Drafts location mid [g] next → P mid → P next) : P last := by
  obtain ⟨mid, -, hbehind⟩ := exists_between front h
  obtain ⟨next, hone, hrest⟩ := exists_between [f] hbehind
  exact hrest.keep hkeep (hhere mid next hone)

/-- A type stays one of its kind, whatever is put into the document. -/
theorem Drafts.exists_type (h : Drafts location doc fs last) {d : Definition}
    (htype : doc.type? name = some d) : ∃ d', last.type? name = some d' ∧ d'.key = d.key := by
  induction h generalizing d with
  | done => exact ⟨d, htype, rfl⟩
  | @provide doc last f fs ds _ _ _ ih =>
    rcases Document.type?_append htype ds with hkept | ⟨e, -, hkey, hfound⟩
    · exact ih hkept
    · obtain ⟨d', hlast, hsame⟩ := ih hfound
      exact ⟨d', hlast, hsame.trans hkey⟩
  | @edit doc next last f fs e _ hedit _ ih =>
    rcases Document.type?_edit hedit name with ⟨-, d₀, d₁, hfound, hone, hnext⟩ | ⟨-, hnext⟩
    · cases htype.symm.trans hfound
      obtain ⟨d', hlast, hsame⟩ := ih hnext
      exact ⟨d', hlast, hsame.trans (Sdl.Definition.key_edit hone)⟩
    · exact ih (hnext.trans htype)

theorem edit_of_drafts {e : Sdl.Edit} {mid next : Document} {place : String}
    (h : Drafts location mid [.ofEdit place e] next) : mid.edit e = .ok next := by
  cases h with
  | provide hplain _ _ => cases hplain
  | edit hpatch hedit hrest =>
    cases hpatch
    cases hrest
    exact hedit

theorem append_of_drafts {text : String} {content mid next : Document} {place : String}
    (htext : Document.parse text = .ok content)
    (h : Drafts location mid [.ofText place text] next) :
    next = mid.append content.definitions := by
  cases h with
  | provide _ hdefinitions hrest =>
    cases hrest
    simp only [Fragment.ofText, Payload.definitions, parseSchema, htext] at hdefinitions
    cases hdefinitions
    rfl
  | edit hpatch _ _ => cases hpatch

end Artifact

end SchemaLoom
