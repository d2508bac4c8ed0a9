/-
Where the indexes of a table come from.

A table has an index for each key that has a name, for each end of a relation, for what relations
from elsewhere imply, and for its tenants (`allIndexes`).  Of several of one name the first is
kept.  So where the index of a name comes from is told by looking for the name in the four lists,
in that order: `SourceOf` has one case for each of them, and each case also says what partitions
the index.

Nothing here depends on classification, apart from the ends of relations being named; that is
what keeps `secondaryIndexes` from failing.
-/
import SchemaLoom.Proofs.Catalog.Naming
import SchemaLoom.Proofs.Catalog.Settling

namespace SchemaLoom.Table

/-! ### The first of a name

`firstOfName` is defined by recursion, as the program keeps indexes; for proofs it is a search.
An index is kept just if a search for its name in the whole list finds it.
-/

/-- Of the indexes of a name the first is kept. -/
theorem mem_firstOfName_iff {is : List Index} {i : Index} :
    i ∈ firstOfName is ↔ is.find? (fun other => other.name = i.name) = some i := by
  induction is with
  | nil => simp [firstOfName]
  | cons j is ih =>
    rw [firstOfName, List.mem_cons, List.mem_filter, ih, List.find?_cons]
    by_cases hname : j.name = i.name
    · simp [hname, eq_comm]
    · have hother : i ≠ j := fun hsame => hname (hsame ▸ rfl)
      simp [hname, hother, Ne.symm hname]

/-- No two indexes that are kept have one name. -/
theorem nodup_firstOfName (is : List Index) : ((firstOfName is).map (·.name)).Nodup := by
  induction is with
  | nil => exact List.nodup_nil
  | cons i is ih =>
    rw [firstOfName, List.map_cons, List.nodup_cons]
    constructor
    · simp
    · exact ih.sublist (List.filter_sublist.map _)

/-- An index of a name that there is one of is kept, and no other of the name is. -/
theorem exists_mem_firstOfName {is : List Index} {name : String} (h : ∃ i ∈ is, i.name = name) :
    ∃ i ∈ firstOfName is, i.name = name ∧ is.find? (fun other => other.name = name) = some i ∧
      ∀ other ∈ firstOfName is, other.name = name → other = i := by
  cases hfound : is.find? fun other => other.name = name with
  | none =>
    obtain ⟨i, hi, hname⟩ := h
    exact absurd hname (by simpa using List.find?_eq_none.1 hfound i hi)
  | some i =>
    have hname : i.name = name := by simpa using List.find?_some hfound
    refine ⟨i, mem_firstOfName_iff.2 (by rwa [hname]), hname, rfl, fun other hother hsame => ?_⟩
    have hfirst := mem_firstOfName_iff.1 hother
    rw [hsame, hfound] at hfirst
    exact (Option.some.inj hfirst).symm

/-! ### All indexes of a table

The four lists of indexes are put together here without the failure that the program provides for:
the ends of relations are named, so `secondaryIndexes` returns the first of each name.
-/

/-- The index of an end of a relation, if it has a name. -/
def endIndex? (t : Table) (r : Relation) : Option Index :=
  r.name.map fun name => { name, partition := t.foreignKey r, sort := r.sortField }

/-- All indexes that a table has a reason for. -/
def allIndexes (t : Table) : List Index :=
  t.secondaryKeys.filterMap keyIndex? ++ (t.relationsOf .belongsTo).filterMap t.endIndex?
    ++ t.impliedIndexes ++ (t.tenancy.map t.tenancyIndex).toList

theorem mapM_relationIndex (t : Table) {rs : List Relation} (h : ∀ r ∈ rs, r.name.isSome = true) :
    rs.mapM t.relationIndex = .ok (rs.filterMap t.endIndex?) := by
  induction rs with
  | nil => rfl
  | cons r rs ih =>
    rw [List.forall_mem_cons] at h
    obtain ⟨name, hname⟩ := Option.isSome_iff_exists.1 h.1
    rw [List.mapM_cons, relationIndex, hname, ih h.2, List.filterMap_cons, endIndex?, hname]
    rfl

theorem secondaryIndexes_eq {t : Table} (h : t.EndsAreNamed) :
    t.secondaryIndexes = .ok (firstOfName t.allIndexes) := by
  rw [secondaryIndexes, mapM_relationIndex t h]
  rfl

/-! ### Sources

A search for a name in all indexes goes through the lists one by one, so each case of `SourceOf`
carries that no list before its own has the name.
-/

/-- Where the index of a name comes from: the key of the name; without one the first end of a
relation of the name; without an end what is implied; or else tenancy. -/
inductive SourceOf (t : Table) (name : String) (i : Index) : Prop where
  | key {key : Key} (hkey : t.keys.find? (fun key => key.name = some name) = some key)
    (hpartition : i.partition = key.partition)
  | relation {e : Relation} (hkeys : ∀ key ∈ t.keys, key.name ≠ some name)
    (hend : (t.relationsOf .belongsTo).find? (fun e => e.name = some name) = some e)
    (hpartition : i.partition = t.foreignKey e)
  | implied (hkeys : ∀ key ∈ t.keys, key.name ≠ some name) (himplied : i ∈ t.impliedIndexes)
  | tenancy (hkeys : ∀ key ∈ t.keys, key.name ≠ some name)
    (hends : ∀ e ∈ t.relationsOf .belongsTo, e.name ≠ some name)
    (himplied : ∀ i ∈ t.impliedIndexes, i.name ≠ name)

/-- An index among those of things that have names is found by its name. -/
theorem find?_filterMap_named {α : Type} {index : α → Option Index} {nameOf : α → Option String}
    (h : ∀ a, (index a).map (·.name) = nameOf a) (name : String) (as : List α) :
    (as.filterMap index).find? (fun i => i.name = name)
      = (as.find? fun a => nameOf a = some name).bind index := by
  have hnamed : ∀ a, (index a).any (fun i => decide (i.name = name))
      = decide (nameOf a = some name) := by
    intro a
    rw [← h a]
    cases index a <;> simp
  rw [List.find?_filterMap]
  simp only [hnamed]

theorem map_name_keyIndex? (key : Key) : (keyIndex? key).map (·.name) = key.name := by
  cases hname : key.name <;> simp [keyIndex?, hname]

theorem map_name_endIndex? (t : Table) (r : Relation) : (t.endIndex? r).map (·.name) = r.name := by
  cases hname : r.name <;> simp [endIndex?, hname]

/-- The first index of a name is that of a key; without one that of an end of a relation; without
either one that is implied; or else that of the tenants. -/
theorem find?_allIndexes (t : Table) (name : String) :
    t.allIndexes.find? (fun i => i.name = name) =
      ((t.keys.find? fun key => key.name = some name).bind keyIndex?).or
        (((t.relationsOf .belongsTo).find? fun r => r.name = some name).bind t.endIndex? |>.or
          ((t.impliedIndexes.find? fun i => i.name = name).or
            ((t.tenancy.map t.tenancyIndex).toList.find? fun i => i.name = name))) := by
  have hkeys : (t.secondaryKeys.filterMap keyIndex?).find? (fun i => i.name = name)
      = (t.keys.find? fun key => key.name = some name).bind keyIndex? := by
    rw [find?_filterMap_named map_name_keyIndex?, secondaryKeys, List.find?_filter]
    congr 2
    funext key
    cases hname : key.name <;> simp [Key.isPrimary, hname]
  rw [allIndexes, List.append_assoc, List.append_assoc, List.find?_append, List.find?_append,
    List.find?_append, hkeys, find?_filterMap_named t.map_name_endIndex?]

theorem sourceOf_of_find? {t : Table} {name : String} {i : Index}
    (h : t.allIndexes.find? (fun other => other.name = name) = some i) : t.SourceOf name i := by
  rw [find?_allIndexes] at h
  cases hkey : t.keys.find? fun key => key.name = some name with
  | some key =>
    have hname : key.name = some name := by simpa using List.find?_some hkey
    simp only [hkey, Option.bind_some, keyIndex?, hname, Option.map_some, Option.some_or,
      Option.some.injEq] at h
    exact .key hkey (h ▸ rfl)
  | none =>
    have hkeys : ∀ key ∈ t.keys, key.name ≠ some name := by simpa using List.find?_eq_none.1 hkey
    rw [hkey, Option.bind_none, Option.none_or] at h
    cases hend : (t.relationsOf .belongsTo).find? fun e => e.name = some name with
    | some e =>
      have hname : e.name = some name := by simpa using List.find?_some hend
      simp only [hend, Option.bind_some, endIndex?, hname, Option.map_some, Option.some_or,
        Option.some.injEq] at h
      exact .relation hkeys hend (h ▸ rfl)
    | none =>
      rw [hend, Option.bind_none, Option.none_or] at h
      cases himplied : t.impliedIndexes.find? fun i => i.name = name with
      | some j =>
        rw [himplied, Option.some_or, Option.some.injEq] at h
        exact .implied hkeys (h ▸ List.mem_of_find?_eq_some himplied)
      | none =>
        exact .tenancy hkeys (by simpa using List.find?_eq_none.1 hend)
          (by simpa using List.find?_eq_none.1 himplied)

theorem exists_mem_allIndexes {t : Table} {name : String}
    (h : (∃ e ∈ t.relationsOf .belongsTo, e.name = some name) ∨
      ∃ i ∈ t.impliedIndexes, i.name = name) : ∃ i ∈ t.allIndexes, i.name = name := by
  rcases h with ⟨e, he, hname⟩ | ⟨i, hi, hname⟩
  · refine ⟨{ name, partition := t.foreignKey e, sort := e.sortField }, ?_, rfl⟩
    refine List.mem_append_left _ (List.mem_append_left _ (List.mem_append_right _ ?_))
    exact List.mem_filterMap.2 ⟨e, he, by rw [endIndex?, hname]; rfl⟩
  · exact ⟨i, List.mem_append_left _ (List.mem_append_right _ hi), hname⟩

end SchemaLoom.Table
