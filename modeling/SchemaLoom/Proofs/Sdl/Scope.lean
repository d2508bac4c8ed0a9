/-
Documents that agree within a scope.

A run that is restricted to some types looks at no directive of any other.  Documents agree
within a scope if they differ in nothing but directives on types, and on fields of types, that
are out of scope in both (`Document.AgreesIn`).  Such documents declare the same types with the
same fields, and the sites in scope are the same (`Document.AgreesIn.sites_eq`).
-/
import Mathlib.Data.List.Forall2
import SchemaLoom.Proofs.Sdl.Site

namespace SchemaLoom.Sdl

/-! ### Agreement -/

/-- A type without the directives on it and on its fields. -/
def Declaration.unmarked : Declaration → Declaration
  | object body =>
    object { body with
      directives := []
      fields := body.fields.map fun f => { f with directives := [] } }
  | input body =>
    input { body with
      directives := []
      fields := body.fields.map fun f => { f with directives := [] } }

/-- Directives on the type `d`, and on its fields, may not act. -/
def Declaration.IsOutside (scope : Scope) (d : Declaration) : Prop :=
  (Site.type d).inScope scope = false

/-- The two definitions are the same, or types out of scope that differ in directives. -/
inductive Definition.AgreesIn (scope : Scope) : Definition → Definition → Prop where
  | same (d : Definition) : AgreesIn scope d d
  | outside {d e : Declaration} (hd : d.IsOutside scope) (he : e.IsOutside scope)
    (hsame : d.unmarked = e.unmarked) : AgreesIn scope d.toDefinition e.toDefinition

/-- The two documents differ in nothing but directives of types that are out of scope. -/
def Document.AgreesIn (scope : Scope) (doc doc' : Document) : Prop :=
  List.Forall₂ (Definition.AgreesIn scope) doc.definitions doc'.definitions

/-! ### Types

Whatever is picked from definitions without looking at directives is the same in both documents.
-/

/-- The name of an object type, and the names and types of its fields. -/
def ObjectType.outline (o : ObjectType) : String × List (String × TypeRef) :=
  (o.name, o.fields.map fun f => (f.name, f.type))

variable {scope : Scope} {doc doc' : Document}

/-- Directives are no part of an outline. -/
theorem ObjectType.outline_of_unmarked {o o' : ObjectType}
    (h : (Declaration.object o).unmarked = (Declaration.object o').unmarked) :
    o.outline = o'.outline := by
  simp only [Declaration.unmarked, Declaration.object.injEq, ObjectType.mk.injEq] at h
  have hfields := congrArg (List.map fun f : Field => (f.name, f.type)) h.2.2.2.2
  rw [List.map_map, List.map_map] at hfields
  exact Prod.ext h.2.1 hfields

theorem Definition.AgreesIn.key_eq {d e : Definition} (h : d.AgreesIn scope e) : d.key = e.key := by
  cases h with
  | same => rfl
  | @outside d e hd he hsame =>
    cases d <;> cases e <;> simp only [Declaration.unmarked, Declaration.object.injEq,
      Declaration.input.injEq, reduceCtorEq, ObjectType.mk.injEq, InputType.mk.injEq] at hsame
    · simp only [Declaration.toDefinition, key, kind, name?, hsame.2.1]
    · simp only [Declaration.toDefinition, key, kind, name?, hsame.2.1]

/-- What is picked alike from definitions that agree is the same in documents that do. -/
theorem Document.AgreesIn.filterMap_eq {α : Type} {pick pick' : Definition → Option α}
    (hpick : ∀ d e, Definition.AgreesIn scope d e → pick d = pick' e)
    (h : doc.AgreesIn scope doc') :
    doc.definitions.filterMap pick = doc'.definitions.filterMap pick' := by
  unfold AgreesIn at h
  generalize doc.definitions = ds, doc'.definitions = ds' at h
  induction h with
  | nil => rfl
  | @cons d e _ _ hfirst _ ih =>
    rw [List.filterMap_cons, List.filterMap_cons, hpick d e hfirst, ih]

/-- The document declares the same names. -/
theorem Document.AgreesIn.namesOf_eq (h : doc.AgreesIn scope doc') (kinds : List DefinitionKind) :
    doc.namesOf kinds = doc'.namesOf kinds := by
  have hpicked : ∀ other : Document, other.namesOf kinds = other.definitions.filterMap fun d =>
      if kinds.contains d.key.1 then d.key.2 else none := by
    intro other
    rw [namesOf, ← List.filterMap_eq_filter, List.filterMap_filterMap]
    refine congrArg (List.filterMap · other.definitions) (funext fun d => ?_)
    by_cases hkind : d.kind ∈ kinds <;> simp [Option.guard, Definition.key, hkind]
  rw [hpicked, hpicked]
  exact h.filterMap_eq fun d e hagrees => by rw [hagrees.key_eq]

/-- The document declares the same object types, as far as their fields go. -/
theorem Document.AgreesIn.outlines_eq (h : doc.AgreesIn scope doc') :
    doc.objects.map ObjectType.outline = doc'.objects.map ObjectType.outline := by
  unfold objects
  rw [List.map_filterMap, List.map_filterMap]
  refine h.filterMap_eq fun d e hagrees => ?_
  cases hagrees with
  | same => rfl
  | @outside d e hd he hsame =>
    cases d <;> cases e <;> try rfl
    · exact congrArg some (ObjectType.outline_of_unmarked hsame)
    · cases hsame
    · cases hsame

/-! ### Sites -/

/-- The sites of a type that are in scope: all of them, or none. -/
theorem Declaration.filter_sites (scope : Scope) (d : Declaration) :
    d.sites.filter (·.inScope scope) = if (Site.type d).inScope scope then d.sites else [] := by
  have hsites : ∀ s ∈ d.sites, s.inScope scope = (Site.type d).inScope scope := by
    intro s hs
    rcases List.mem_cons.1 hs with rfl | hs
    · rfl
    · obtain ⟨f, -, rfl⟩ := List.mem_map.1 hs
      exact Site.inScope_field scope d f
  cases hscope : (Site.type d).inScope scope with
  | true => exact List.filter_eq_self.2 fun s hs => (hsites s hs).trans hscope
  | false => exact List.filter_eq_nil_iff.2 fun s hs => by simp [hsites s hs, hscope]

/-- **The sites in scope are the same.** -/
theorem Document.AgreesIn.sites_eq (h : doc.AgreesIn scope doc') :
    doc.sites.filter (·.inScope scope) = doc'.sites.filter (·.inScope scope) := by
  have hflat : ∀ other : Document, other.sites.filter (·.inScope scope)
      = (other.definitions.filterMap fun d => (Declaration.ofDefinition? d).map fun t =>
          t.sites.filter (·.inScope scope)).flatten := by
    intro other
    rw [sites, List.filter_flatMap, List.flatMap_def, List.map_filterMap]
  rw [hflat, hflat]
  refine congrArg List.flatten (h.filterMap_eq fun d e hagrees => ?_)
  cases hagrees with
  | same => rfl
  | @outside d e hd he hsame =>
    have hof : ∀ d : Declaration, Declaration.ofDefinition? d.toDefinition = some d := by
      intro d
      cases d <;> rfl
    have hnone : ∀ d : Declaration, d.IsOutside scope → d.sites.filter (·.inScope scope) = [] := by
      intro d houtside
      rw [d.filter_sites, houtside, if_neg Bool.false_ne_true]
    rw [hof, hof, Option.map_some, Option.map_some, hnone d hd, hnone e he]

end SchemaLoom.Sdl
