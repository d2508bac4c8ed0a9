/-
Which fields have resolvers.

There are the operations of tables, the queries by keys, and the fields of the document that are
relations or bound to functions.  The operations are named after their tables, in frames that
differ, so they are apart by themselves (`nodup_operationFields`).  The names of queries are
free, and so are those of fields; so the places of resolvers are apart just if these names leave
them so (`nodup_places_iff`, `ResolversAreApart`).

Places are counted sort by sort.  Those of one sort are a permutation of what tables and bindings
ask for (`resolvers_perm`, `bindings_perm`), and of two lists that are joined none has a place
twice just if neither has and they have none in common.

That no field of the document is twice among its relations is a condition on the document
(`DeclaresOnce`), which the program does not check.
-/
import Mathlib.Data.List.Flatten
import Mathlib.Data.List.Perm.Basic
import SchemaLoom.Proofs.Catalog.Dispatch
import SchemaLoom.Proofs.Catalog.ResolverPlace
import SchemaLoom.Proofs.Catalog.Stripping

namespace SchemaLoom

open Artifact Surface
open Sdl (Document Scope Site)

/-- The field that is bound to a function. -/
def Binding.function? : Binding → Option (String × String)
  | .function type field _ => some (type, field)
  | .foreignInput .. => none

namespace Catalog

variable {c : Catalog} {t : Table}

/-! ### Fields with resolvers

The places that are emitted are counted by the fields they are for: operations, queries by key,
relations and computed fields.  The order differs, and so the lists agree up to permutation.
-/

/-- The operations of the tables. -/
def operationFields (c : Catalog) : List (String × String) :=
  c.tables.flatMap fun t => ("Query", getName t) :: ("Query", listName t)
    :: mutations.map fun action => ("Mutation", mutationName t action)

/-- The queries by keys. -/
def queryFields (c : Catalog) : List (String × String) :=
  c.tables.flatMap fun t => t.queryKeys.map fun key => ("Query", queryName key)

/-- The queries by keys, each with the table that its binding is filed under. -/
def queryPlaces (c : Catalog) : List (String × String) :=
  c.tables.flatMap fun t => t.queryKeys.map fun key => (t.name, queryName key)

/-- The fields that are relations to tables. -/
def relationFields (c : Catalog) : List (String × String) :=
  c.tables.flatMap fun t => (t.relations.filter (t.isResolvable ·)).map fun r => (t.name, r.field)

/-- The fields that are bound to functions. -/
def functionFields (c : Catalog) : List (String × String) := c.bindings.filterMap (·.function?)

/-- The fields that have resolvers of their own. -/
def ownFields (c : Catalog) : List (String × String) := c.relationFields ++ c.functionFields

/-- The places of one sort, part by part. -/
theorem filterMap_places_perm {α : Type} (sort : ResolverPlace → Option α) (c : Catalog) :
    (c.places.filterMap sort).Perm
      (c.tables.flatMap (fun t => (partPlaces t .operations).filterMap sort)
        ++ c.tables.flatMap (fun t =>
          t.queryKeys.flatMap fun key => (partPlaces t (.query key)).filterMap sort)
        ++ c.tables.flatMap (fun t => (t.relations.filter (t.isResolvable ·)).flatMap fun r =>
          (partPlaces t (.relation r)).filterMap sort)
        ++ c.bindings.flatMap fun b => (bindingPlaces b).filterMap sort) := by
  have htable : ∀ t : Table, (t.parts.flatMap (partPlaces t)).filterMap sort
      = (partPlaces t .operations).filterMap sort
        ++ t.queryKeys.flatMap (fun key => (partPlaces t (.query key)).filterMap sort)
        ++ (t.relations.filter (t.isResolvable ·)).flatMap fun r =>
          (partPlaces t (.relation r)).filterMap sort := by
    intro t
    rw [Table.parts, List.flatMap_append, List.flatMap_append, List.flatMap_map, List.flatMap_map,
      List.filterMap_append, List.filterMap_append, List.filterMap_flatMap, List.filterMap_flatMap,
      List.filterMap_flatMap, List.flatMap_cons, List.flatMap_singleton]
    rfl
  rw [places, List.filterMap_append, List.filterMap_flatMap, List.filterMap_flatMap]
  simp only [htable]
  exact List.Perm.append_right _ ((List.flatMap_append_perm _ _ _).symm.trans
    (List.Perm.append_right _ (List.flatMap_append_perm _ _ _).symm))

/-- The templates that are asked for are those of the operations, of the queries by keys, and of the
fields that have resolvers of their own. -/
theorem resolvers_perm (c : Catalog) : (c.places.filterMap ResolverPlace.resolver?).Perm
    (c.operationFields ++ c.queryFields ++ c.ownFields) := by
  refine (filterMap_places_perm ResolverPlace.resolver? c).trans (List.Perm.of_eq ?_)
  have hoperations : ∀ t : Table, (partPlaces t .operations).filterMap ResolverPlace.resolver?
      = ("Query", getName t) :: ("Query", listName t)
        :: mutations.map fun action => ("Mutation", mutationName t action) := by
    intro t
    unfold partPlaces
    cases t.uniqueFields.isEmpty <;> rfl
  have hbindings : ∀ b : Binding, (bindingPlaces b).filterMap ResolverPlace.resolver?
      = b.function?.toList := by
    intro b
    cases b <;> rfl
  rw [operationFields, queryFields, ownFields, relationFields, functionFields,
    List.filterMap_eq_flatMap_toList, ← List.append_assoc]
  simp only [hoperations, hbindings, List.map_eq_flatMap]
  rfl

/-- The bindings of fields that are asked for are those of the queries by keys, and of the fields
that have resolvers of their own. -/
theorem bindings_perm (c : Catalog) : (c.places.filterMap ResolverPlace.binding?).Perm
    (c.queryPlaces ++ c.ownFields) := by
  refine (filterMap_places_perm ResolverPlace.binding? c).trans (List.Perm.of_eq ?_)
  have hoperations : ∀ t : Table,
      (partPlaces t .operations).filterMap ResolverPlace.binding? = [] := by
    intro t
    unfold partPlaces
    cases t.uniqueFields.isEmpty <;> rfl
  have hbindings : ∀ b : Binding, (bindingPlaces b).filterMap ResolverPlace.binding?
      = b.function?.toList := by
    intro b
    cases b <;> rfl
  rw [queryPlaces, ownFields, relationFields, functionFields, List.filterMap_eq_flatMap_toList,
    ← List.append_assoc]
  simp only [hoperations, hbindings, List.map_eq_flatMap, List.flatMap_eq_nil_iff.2, implies_true,
    List.nil_append]
  rfl

/-- What neither queries nor relations nor bindings ask for is asked for by the operations of
tables. -/
theorem filterMap_places_operations {α : Type} (sort : ResolverPlace → Option α)
    (hresolver : ∀ type field, sort (.resolver type field) = none)
    (hbinding : ∀ type field, sort (.binding type field) = none) (c : Catalog) :
    (c.places.filterMap sort).Perm
      (c.tables.flatMap fun t => (partPlaces t .operations).filterMap sort) := by
  refine (filterMap_places_perm sort c).trans (List.Perm.of_eq ?_)
  have hpair : ∀ type field type' field',
      [ResolverPlace.binding type field, .resolver type' field'].filterMap sort = [] := by
    intro type field type' field'
    rw [List.filterMap_cons_none (hbinding type field), List.filterMap_cons_none (hresolver ..)]
    rfl
  have hbindings : ∀ b : Binding, (bindingPlaces b).filterMap sort = [] := by
    intro b
    cases b with
    | function type field source => exact hpair ..
    | foreignInput => rfl
  have hnone : ∀ {β γ : Type} (bs : List β), bs.flatMap (fun _ => ([] : List γ)) = [] := fun bs =>
    List.flatMap_eq_nil_iff.2 fun _ _ => rfl
  simp only [partPlaces, hpair, hbindings, hnone, List.append_nil]

/-- The steps that are asked for are those of the tables with unique fields. -/
theorem steps_perm (c : Catalog) : (c.places.filterMap ResolverPlace.step?).Perm
    (c.tables.flatMap fun t => if t.uniqueFields.isEmpty then []
      else [readStep t, writeStep t .update, writeStep t .delete]) := by
  have hoperations : ∀ t : Table, (partPlaces t .operations).filterMap ResolverPlace.step?
      = if t.uniqueFields.isEmpty then []
        else [readStep t, writeStep t .update, writeStep t .delete] := by
    intro t
    unfold partPlaces
    cases t.uniqueFields.isEmpty <;> rfl
  simpa only [hoperations] using
    filterMap_places_operations ResolverPlace.step? (fun _ _ => rfl) (fun _ _ => rfl) c

/-- The bindings of operations that are asked for are those of the tables. -/
theorem operations_perm (c : Catalog) :
    (c.places.filterMap ResolverPlace.operations?).Perm c.tableNames := by
  have hoperations : ∀ t : Table, (partPlaces t .operations).filterMap ResolverPlace.operations?
      = [t.name] := by
    intro t
    unfold partPlaces
    cases t.uniqueFields.isEmpty <;> rfl
  rw [tableNames, List.map_eq_flatMap]
  simpa only [hoperations] using
    filterMap_places_operations ResolverPlace.operations? (fun _ _ => rfl) (fun _ _ => rfl) c

/-! ### Names that are generated

Two names in frames are apart if the frames differ at their ends, whatever stands between: the
first character of one text or the last decides.  So no property of the names of tables is needed
beyond their being distinct.
-/

/-- A name with what a frame sets before and after it. -/
def framed (name : String) (frame : String × String) : String := frame.1 ++ name ++ frame.2

/-- What the frames `f` and `g` set before a name differs from the first character on, or what they
set after it up to the last. -/
def FramesDiffer (f g : String × String) : Prop :=
  (f.1.toList ≠ [] ∧ g.1.toList ≠ [] ∧ f.1.toList.head? ≠ g.1.toList.head?) ∨
    f.2.toList ≠ [] ∧ g.2.toList ≠ [] ∧ f.2.toList.getLast? ≠ g.2.toList.getLast?

instance (f g : String × String) : Decidable (FramesDiffer f g) :=
  inferInstanceAs (Decidable (_ ∨ _))

theorem framed_ne {f g : String × String} (h : FramesDiffer f g) (name other : String) :
    framed name f ≠ framed other g := by
  intro hsame
  have htext : f.1.toList ++ (name.toList ++ f.2.toList)
      = g.1.toList ++ (other.toList ++ g.2.toList) := by
    simpa only [framed, String.toList_append, List.append_assoc] using congrArg String.toList hsame
  rcases h with ⟨hf, hg, hheads⟩ | ⟨hf, hg, hlasts⟩
  · rw [← List.head?_append_of_ne_nil _ hf, htext, List.head?_append_of_ne_nil _ hg] at hheads
    exact hheads rfl
  · rw [← List.append_assoc, ← List.append_assoc] at htext
    rw [← List.getLast?_append_of_ne_nil _ hf, htext, List.getLast?_append_of_ne_nil _ hg] at hlasts
    exact hlasts rfl

/-- Names in frames that differ are apart. -/
theorem nodup_framed {names : List String} {frames : List (String × String)}
    (hnames : names.Nodup) (hframes : frames.Nodup)
    (hdiffer : ∀ f ∈ frames, ∀ g ∈ frames, f ≠ g → FramesDiffer f g) :
    (names.flatMap fun name => frames.map (framed name)).Nodup := by
  have hsame : ∀ name other, ∀ f ∈ frames, ∀ g ∈ frames, framed name f = framed other g →
      f = g ∧ name = other := by
    intro name other f hf g hg hframed
    have hframe : f = g := by
      by_contra hne
      exact framed_ne (hdiffer f hf g hg hne) name other hframed
    subst hframe
    exact ⟨rfl, eq_of_endings (fun _ => rfl) (fun _ => rfl) hframed⟩
  rw [List.nodup_flatMap]
  constructor
  · intro name _
    exact List.Nodup.map_on (fun f hf g hg h => (hsame name name f hf g hg h).1) hframes
  · refine hnames.imp fun {name other} hne x hx hy => ?_
    obtain ⟨f, hf, rfl⟩ := List.mem_map.1 hx
    obtain ⟨g, hg, hframed⟩ := List.mem_map.1 hy
    exact hne (hsame other name g hg f hf hframed).2.symm

/-- The operations of tables are apart. -/
theorem nodup_operationFields (hnodup : c.tableNames.Nodup) : c.operationFields.Nodup := by
  have hnames : c.operationFields.map (·.2) = c.tableNames.flatMap fun name =>
      [("get", ""), ("list", "s"), ("create", ""), ("update", ""), ("delete", "")].map
        (framed name) := by
    rw [operationFields, tableNames, List.map_flatMap, List.flatMap_map]
    refine congrArg (List.flatMap · c.tables) (funext fun t => ?_)
    simp [framed, getName, listName, mutations, mutationName, Access.Action.text]
  exact List.Nodup.of_map (·.2)
    (hnames ▸ nodup_framed hnodup (by decide) (by decide))

/-- The steps of mutations are apart. -/
theorem nodup_steps (hnodup : c.tableNames.Nodup) :
    (c.tables.flatMap fun t => if t.uniqueFields.isEmpty then []
      else [readStep t, writeStep t .update, writeStep t .delete]).Nodup := by
  have hnames : (c.tables.flatMap fun t => [readStep t, writeStep t .update, writeStep t .delete])
      = c.tableNames.flatMap fun name =>
        [("", "ItemRead"), ("update", "Write"), ("delete", "Write")].map (framed name) := by
    rw [tableNames, List.flatMap_map]
    refine congrArg (List.flatMap · c.tables) (funext fun t => ?_)
    simp [framed, readStep, writeStep, mutationName, Access.Action.text]
  refine (hnames ▸ nodup_framed hnodup (by decide) (by decide)).sublist
    (List.Sublist.flatMap_right c.tables fun t _ => ?_)
  split
  · exact List.nil_sublist _
  · exact List.Sublist.refl _

/-- **The places of resolvers are apart just if the fields with templates are, and those that
bindings are filed under.** These are `operationFields`, `queryFields` and `ownFields` on the one
hand, `queryPlaces` and `ownFields` on the other. -/
theorem nodup_places_iff (hnodup : c.tableNames.Nodup) :
    c.places.Nodup ↔ (c.operationFields ++ c.queryFields ++ c.ownFields).Nodup ∧
      (c.queryPlaces ++ c.ownFields).Nodup := by
  rw [ResolverPlace.nodup_iff, (resolvers_perm c).nodup_iff, (bindings_perm c).nodup_iff,
    (steps_perm c).nodup_iff, (operations_perm c).nodup_iff]
  exact and_iff_left ⟨nodup_steps hnodup, hnodup⟩

/-! ### Fields of the document

Relations and bindings are collected once for each field that bears the directive.
-/

/-- No field of `document` bears two directives that play `role`. -/
def DeclaresOnce (document : Document) (role : Role) : Prop :=
  ∀ d ∈ document.declarations, ∀ f ∈ d.fields,
    (f.directives.filter fun d => d.name = role.name).length ≤ 1

instance (document : Document) (role : Role) : Decidable (DeclaresOnce document role) := by
  unfold DeclaresOnce
  infer_instance

/-- The fields that bear directives of a role, one for each directive. -/
def fieldsBearing (role : Role) (os : List Occurrence) : List (String × String) :=
  os.filterMap fun o => if o.2.name = role.name then placeOf? o else none

theorem placeOf?_eq_some_iff {o : Occurrence} {place : String × String} :
    placeOf? o = some place ↔ o.1.address = (place.1, some place.2) := by
  obtain ⟨type, field⟩ := place
  unfold placeOf? Site.address
  cases o.1.fieldName? <;> simp

/-- No field bears two directives of a role, wherever they stand. -/
theorem nodup_fieldsBearing {document : Document} {role : Role} (hdistinct : document.IsDistinct)
    (honce : DeclaresOnce document role) : (fieldsBearing role (occurrences document)).Nodup := by
  have hbears : ∀ {o : Occurrence} {place},
      (if o.2.name = role.name then placeOf? o else none) = some place →
        o.2.name = role.name ∧ o.1.address = (place.1, some place.2) := by
    intro o place h
    split_ifs at h with hname
    exact ⟨hname, placeOf?_eq_some_iff.1 h⟩
  rw [fieldsBearing, List.nodup_iff_pairwise_ne, List.pairwise_filterMap, occurrences,
    List.pairwise_flatMap]
  constructor
  · intro site hsite
    rw [List.pairwise_map]
    cases site with
    | type d =>
      refine List.pairwise_of_forall fun x y place hplace => ?_
      cases congrArg Prod.snd (hbears hplace).2
    | field d f =>
      rw [Document.field_mem_sites] at hsite
      refine (pairwise_of_length_filter_le_one (honce d hsite.1 f hsite.2)).imp ?_
      intro x y hnot place hplace place' hplace'
      exact absurd ⟨decide_eq_true (hbears hplace).1, decide_eq_true (hbears hplace').1⟩ hnot
  · refine (List.pairwise_map.1 hdistinct.nodup_sites).imp ?_
    intro s s' hne x hx y hy place hplace place' hplace' hsame
    obtain ⟨d, -, rfl⟩ := List.mem_map.1 hx
    obtain ⟨e, -, rfl⟩ := List.mem_map.1 hy
    exact hne ((hbears hplace).2.trans (hsame ▸ (hbears hplace').2.symm))

theorem of_topicOf?_relation {scope : Scope} {o : Occurrence}
    (h : topicOf? scope o = some .relation) : o.2.name = Role.connection.name := by
  obtain ⟨site, directive⟩ := o
  unfold topicOf? at h
  split at h
  next =>
    dsimp only at h
    split at h
    · split_ifs at h <;> cases h
    · split_ifs at h with hname <;> cases h
      exact hname
    · split_ifs at h
      cases h
    · cases h
  next => cases h

/-- What is about a binding is about a function at an object type, or else about a relation of an
input type. -/
theorem of_topicOf?_binding {scope : Scope} {o : Occurrence}
    (h : topicOf? scope o = some .binding) :
    (∃ body field, o.1 = .field (.object body) (.output field) ∧
        o.2.name = Role.function.name) ∨
      ∃ body field, o.1 = .field (.input body) (.input field) ∧
        o.2.name = Role.connection.name := by
  obtain ⟨site, directive⟩ := o
  unfold topicOf? at h
  split at h
  next =>
    dsimp only at h
    split at h
    · split_ifs at h <;> cases h
    next body field _ =>
      split_ifs at h with _ _ _ hname <;> cases h
      exact Or.inl ⟨body, field, rfl, hname⟩
    next body field _ =>
      split_ifs at h with hname
      exact Or.inr ⟨body, field, rfl, hname⟩
    · cases h
  next => cases h

/-- The relations of a table are on fields that bear the directive of relations. -/
theorem relations_sublist {scope : Scope} {os : List Occurrence} (h : Tells scope os t) :
    (t.relations.map fun r => (t.name, r.field)).Sublist (fieldsBearing .connection os) := by
  have hplaces : fieldsBearing .connection (aboutType scope .relation t.name os)
      = t.relations.filterMap (some ∘ fun r => (t.name, r.field)) := by
    refine filterMap_eq_of_forall₂ h.relations fun o ho r hsaid => ?_
    obtain ⟨habout, htype⟩ := List.mem_filter.1 ho
    obtain ⟨d, field, shape, hsite, -, hdeclared⟩ := hsaid
    rw [if_pos (of_topicOf?_relation (of_decide_eq_true (List.mem_filter.1 habout).2))]
    refine placeOf?_eq_some_iff.2 ?_
    dsimp only
    rw [(Relation.ends_of_declared hdeclared).1, ← of_decide_eq_true htype, hsite]
    rfl
  rw [← List.filterMap_eq_map, ← hplaces]
  exact (List.filter_sublist.trans List.filter_sublist).filterMap _

/-- The fields that are bound to functions bear the directive of functions. -/
theorem functions_sublist {scope : Scope} {os : List Occurrence} (h : TellsFields scope os c) :
    c.functionFields.Sublist (fieldsBearing .function os) := by
  have hplaces : fieldsBearing .function (about scope .binding os) = c.functionFields := by
    refine filterMap_eq_of_forall₂ h.bindings fun o ho b hsaid => ?_
    rcases of_topicOf?_binding (of_decide_eq_true (List.mem_filter.1 ho).2) with
      ⟨body, field, hsite, hname⟩ | ⟨body, field, hsite, hname⟩
    · rcases hsaid with ⟨d, other, hother, hbinding⟩ | ⟨_, _, _, hother, -, -⟩
      · rw [if_pos hname]
        unfold functionBinding at hbinding
        split at hbinding <;> cases hbinding
        rw [hother] at hsite
        cases hsite
        refine placeOf?_eq_some_iff.2 ?_
        rw [hother]
        rfl
      · rw [hother] at hsite
        cases hsite
    · rcases hsaid with ⟨d, other, hother, hbinding⟩ | ⟨_, _, _, hother, -, rfl⟩
      · rw [hother] at hsite
        cases hsite
      · rw [if_neg (by rw [hname]; decide)]
        rfl
  exact hplaces ▸ List.filter_sublist.filterMap _

/-- The fields of relations to tables are apart, if no field is declared to be a relation twice. -/
theorem nodup_relationFields {document : Document} {scope : Scope} {before : Catalog}
    (hdistinct : document.IsDistinct) (honce : DeclaresOnce document .connection)
    (hdeclares : Declares document scope before) (hkin : before.Kin c)
    (hnodup : c.tableNames.Nodup) : c.relationFields.Nodup := by
  rw [relationFields, List.nodup_flatMap]
  constructor
  · intro t ht
    obtain ⟨t₀, ht₀, hsame⟩ := hkin.tables t ht
    have hfields : t.relations.map (fun r => (t.name, r.field))
        = t₀.relations.map fun r => (t₀.name, r.field) := by
      have hends := congrArg (List.map fun ends => (t.name, ends.1)) hsame.relations
      rw [List.map_map, List.map_map] at hends
      rw [← hsame.name]
      exact hends
    refine List.Nodup.sublist (List.filter_sublist.map _) ?_
    rw [hfields]
    exact (nodup_fieldsBearing hdistinct honce).sublist (relations_sublist (hdeclares.items t₀ ht₀))
  · refine (List.pairwise_map.1 hnodup).imp fun {t u} hne x hx hy => ?_
    obtain ⟨r, -, rfl⟩ := List.mem_map.1 hx
    obtain ⟨r', -, hsame⟩ := List.mem_map.1 hy
    exact hne (congrArg Prod.fst hsame).symm

theorem nodup_functionFields {document : Document} {scope : Scope} {before : Catalog}
    (hdistinct : document.IsDistinct) (honce : DeclaresOnce document .function)
    (hdeclares : Declares document scope before) (hkin : before.Kin c) :
    c.functionFields.Nodup := by
  rw [functionFields, hkin.bindings]
  exact (nodup_fieldsBearing hdistinct honce).sublist (functions_sublist hdeclares.fields)

/-! ### Resolvers that are apart -/

/-- The names of queries and of fields leave the places of resolvers apart. -/
structure ResolversAreApart (c : Catalog) : Prop where
  /-- No two queries by keys have one name. -/
  queries : c.queryFields.Nodup
  /-- No query by a key has the name of an operation. -/
  operations : ∀ field ∈ c.queryFields, field ∉ c.operationFields
  /-- No relation is bound to a function. -/
  functions : ∀ field ∈ c.relationFields, field ∉ c.functionFields
  /-- No field of the document stands where an operation or a query is generated. -/
  fields : ∀ field ∈ c.ownFields, field ∉ c.operationFields ∧ field ∉ c.queryFields
  /-- No field of a table has the name of a query by one of its keys. -/
  bindings : ∀ field ∈ c.ownFields, field ∉ c.queryPlaces

instance (c : Catalog) : Decidable c.ResolversAreApart :=
  decidable_of_iff (c.queryFields.Nodup ∧ (∀ field ∈ c.queryFields, field ∉ c.operationFields) ∧
      (∀ field ∈ c.relationFields, field ∉ c.functionFields) ∧
      (∀ field ∈ c.ownFields, field ∉ c.operationFields ∧ field ∉ c.queryFields) ∧
      ∀ field ∈ c.ownFields, field ∉ c.queryPlaces)
    ⟨fun h => ⟨h.1, h.2.1, h.2.2.1, h.2.2.2.1, h.2.2.2.2⟩,
      fun h => ⟨h.queries, h.operations, h.functions, h.fields, h.bindings⟩⟩

/-- Queries by keys that have names of their own are filed apart. -/
theorem nodup_queryPlaces (h : c.queryFields.Nodup) : c.queryPlaces.Nodup := by
  have hnames : c.queryPlaces.map (·.2) = c.queryFields.map (·.2) := by
    simp only [queryPlaces, queryFields, List.map_flatMap, List.map_map, Function.comp_def]
  have hquery : ∀ field ∈ c.queryFields, field.1 = "Query" := by
    intro field hfield
    obtain ⟨t, -, hfield⟩ := List.mem_flatMap.1 hfield
    obtain ⟨key, -, rfl⟩ := List.mem_map.1 hfield
    rfl
  refine List.Nodup.of_map (·.2) (hnames ▸ List.Nodup.map_on ?_ h)
  intro x hx y hy hsame
  exact Prod.ext ((hquery x hx).trans (hquery y hy).symm) hsame

theorem resolversAreApart_iff (hnodup : c.tableNames.Nodup) (hrelations : c.relationFields.Nodup)
    (hfunctions : c.functionFields.Nodup) : c.ResolversAreApart ↔
      (c.operationFields ++ c.queryFields ++ c.ownFields).Nodup ∧
        (c.queryPlaces ++ c.ownFields).Nodup := by
  have hoperations := nodup_operationFields hnodup
  constructor
  · intro h
    have hown : c.ownFields.Nodup := List.nodup_append'.2 ⟨hrelations, hfunctions, h.functions⟩
    have hgenerated : (c.operationFields ++ c.queryFields).Nodup :=
      List.nodup_append'.2 ⟨hoperations, h.queries, fun x hoperation hquery =>
        h.operations x hquery hoperation⟩
    refine ⟨List.nodup_append'.2 ⟨hgenerated, hown, fun x hx hfield => ?_⟩,
      List.nodup_append'.2 ⟨nodup_queryPlaces h.queries, hown, fun x hquery hfield =>
        h.bindings x hfield hquery⟩⟩
    rcases List.mem_append.1 hx with hoperation | hquery
    · exact (h.fields x hfield).1 hoperation
    · exact (h.fields x hfield).2 hquery
  · rintro ⟨htemplates, hbindings⟩
    obtain ⟨hgenerated, hown, hfields⟩ := List.nodup_append'.1 htemplates
    obtain ⟨-, hqueries, hapart⟩ := List.nodup_append'.1 hgenerated
    exact {
      queries := hqueries
      operations := fun x hquery hoperation => hapart hoperation hquery
      functions := (List.nodup_append'.1 hown).2.2
      fields := fun x hfield =>
        ⟨fun hoperation => hfields (List.mem_append_left _ hoperation) hfield,
          fun hquery => hfields (List.mem_append_right _ hquery) hfield⟩
      bindings := fun x hfield hquery => (List.nodup_append'.1 hbindings).2.2 hquery hfield }

/-- Places of types that have no points in their names are plain. -/
theorem isPlain_places (htables : ∀ t ∈ c.tables, '.' ∉ t.name.toList)
    (hfunctions : ∀ type field source, Binding.function type field source ∈ c.bindings →
      '.' ∉ type.toList) : ∀ p ∈ c.places, p.IsPlain := by
  have hquery : '.' ∉ "Query".toList := by decide
  have hmutation : '.' ∉ "Mutation".toList := by decide
  intro p hp
  rw [places, List.mem_append, List.mem_flatMap, List.mem_flatMap] at hp
  rcases hp with ⟨t, ht, hp⟩ | ⟨b, hb, hp⟩
  · obtain ⟨part, -, hp⟩ := List.mem_flatMap.1 hp
    have htable := htables t ht
    cases part with
    | storage => cases hp
    | operations =>
      have hstep : ∀ beginning ending : String, '.' ∉ beginning.toList → '.' ∉ ending.toList →
          '.' ∉ (beginning ++ t.name ++ ending).toList := by
        intro beginning ending hbeginning hending
        simp only [String.toList_append, List.mem_append, not_or]
        exact ⟨⟨hbeginning, htable⟩, hending⟩
      simp only [partPlaces, List.cons_append, List.mem_cons, List.mem_append, List.mem_map] at hp
      rcases hp with rfl | rfl | rfl | ⟨action, -, rfl⟩ | hp
      · exact htable
      · exact hquery
      · exact hquery
      · exact hmutation
      · split_ifs at hp
        · cases hp
        · obtain ⟨name, hname, rfl⟩ := List.mem_map.1 hp
          simp only [List.mem_cons, List.not_mem_nil, or_false] at hname
          rcases hname with rfl | rfl | rfl
          · exact hstep "" "ItemRead" (by decide) (by decide)
          · exact hstep "update" "Write" (by decide) (by decide)
          · exact hstep "delete" "Write" (by decide) (by decide)
    | query key =>
      simp only [partPlaces, List.mem_cons, List.not_mem_nil, or_false] at hp
      rcases hp with rfl | rfl
      · exact htable
      · exact hquery
    | relation r =>
      simp only [partPlaces, List.mem_cons, List.not_mem_nil, or_false] at hp
      rcases hp with rfl | rfl <;> exact htable
  · cases b with
    | function type field source =>
      have htype := hfunctions type field source hb
      simp only [bindingPlaces, List.mem_cons, List.not_mem_nil, or_false] at hp
      rcases hp with rfl | rfl <;> exact htype
    | foreignInput => cases hp

end Catalog

end SchemaLoom
