/-
How related items are read.

A relation to one item holds a value by which the storage finds the item: all of its primary key,
or a part of it.  So the request gets the item, or queries the partition that the value
addresses.  It is decided by the primary key that was noted for the field of the relation.  A
relation may say another attribute than the partition; nothing checks that it is a primary key.

A primary key is noted whenever a relation on the field has its turn, over what was noted before.
So after some turns the field has the primary key of the table that the last relation on it so
far leads to (`TargetsFollow`); in the end, of the last one of all (`targetKey?_of_classify`).

The invariant speaks of the turns of one owner, and turns of other tables leave it alone; it goes
through the run beside the one that follows foreign keys (`Follows`), from which it takes what
the relations are.
-/
import SchemaLoom.Proofs.Catalog.Readers
import SchemaLoom.Proofs.Catalog.SharedKey

namespace SchemaLoom

/-! ### Requests

The operation of a request is read off its text, by the line that names it.
-/

namespace Resolver

/-- The template asks the storage for `operation`. -/
def Performs (t : Template) (operation : String) : Prop :=
  shiftedLine (named "operation" (quoted operation) ++ ",") ∈ t

instance (t : Template) (operation : String) : Decidable (Performs t operation) :=
  inferInstanceAs (Decidable (_ ∈ _))

/-- The template gets the item that has a value as the attribute `key`, and says no other attribute.
-/
def GetsBy (t : Template) (key : String) : Prop :=
  ∃ before value, t = before ++ request "2018-05-29" "GetItem" [submap "key" [named key value]]

/-- An item is queried if the value addresses only a partition. -/
theorem performs_relatedItemRequest (yours mine operation : String) (isPartial : Bool) :
    Performs (relatedItemRequest yours mine isPartial) operation ↔
      operation = if isPartial then "Query" else "GetItem" := by
  have hend : ∀ s : String,
      operation.toList ++ ['"', ','] = s.toList ++ ['"', ','] ↔ operation = s := by
    intro s
    rw [List.append_left_inj, String.toList_inj]
  cases isPartial with
  | false =>
    simpa [Performs, relatedItemRequest, whenever, block, request, mapping, members, endedBy,
      submap, shifted, named, quoted, shiftedLine, ← String.toList_inj] using hend "GetItem"
  | true =>
    simpa [Performs, relatedItemRequest, matching, whenever, block, request, mapping, members,
      endedBy, submap, shifted, named, quoted, shiftedLine, ← String.toList_inj] using hend "Query"

theorem getsBy_relatedItemRequest (yours mine : String) :
    GetsBy (relatedItemRequest yours mine false) yours :=
  ⟨_, _, rfl⟩

end Resolver

/-! ### Targets

The key that is noted for a field is the one of the table that the relation leads to, if it is a
table.
-/

/-- The primary key of a field is what was found out about a relation on it last. -/
theorem Table.lookup_targetKeys_note (t : Table) (f : Finding) (field : String) :
    (t.note f).targetKeys.lookup field =
      if t.name = f.owner ∧ f.field = field then f.key.or (t.targetKeys.lookup field)
      else t.targetKeys.lookup field := by
  rw [targetKeys_note]
  unfold noteKind
  by_cases howner : t.name = f.owner
  · rw [if_pos howner]
    cases hkey : f.key with
    | none => simp [setKind]
    | some key => simp [setTarget, setKind, lookup_setEntry, howner, eq_comm]
  · rw [if_neg howner, if_neg fun h => howner h.1]

namespace Catalog

variable {c c' before : Catalog} {owner name : String} {position : String × Nat} {t : Table}
  {r : Relation} {rs rs' : List Relation} {field : String} {turns : Nat}

/-- The primary key of the table of a name. -/
def primaryKey? (c : Catalog) (name : String) : Option Key := (c.table? name).map (·.primaryKey)

/-- The primary key of the table that the last relation of a list on a field leads to, of those that
lead to one. -/
def keyBehind (c : Catalog) (rs : List Relation) (field : String) : Option Key :=
  rs.reverse.findSome? fun r => if r.field = field then c.primaryKey? r.target else none

theorem keyBehind_append (c : Catalog) (rs rs' : List Relation) (field : String) :
    c.keyBehind (rs ++ rs') field = (c.keyBehind rs' field).or (c.keyBehind rs field) := by
  rw [keyBehind, List.reverse_append, List.findSome?_append]
  rfl

/-- What is behind a field depends on primary keys and on the ends of relations. -/
theorem keyBehind_congr (hkeys : c.primaryKey? = c'.primaryKey?)
    (hends : rs.map Relation.ends = rs'.map Relation.ends) (field : String) :
    c.keyBehind rs field = c'.keyBehind rs' field := by
  have hbehind := map_eq_of_map_eq
    (f := fun r : Relation => if r.field = field then c'.primaryKey? r.target else none) ?_ hends
  · simpa [keyBehind, hkeys, ← List.map_reverse, List.findSome?_map, Function.comp_def] using
      congrArg (·.reverse.findSome? id) hbehind
  · intro r r' hsame
    simp only [Relation.ends, Prod.mk.injEq] at hsame
    rw [hsame.1, hsame.2.1]

/-- Behind a field whose relations all lead to one table there is the primary key of that table. -/
theorem keyBehind_eq_primaryKey? (hr : r ∈ rs)
    (halone : ∀ s ∈ rs, s.field = r.field → s.target = r.target) :
    c.keyBehind rs r.field = c.primaryKey? r.target := by
  cases hkey : c.primaryKey? r.target with
  | none =>
    rw [keyBehind, List.findSome?_eq_none_iff]
    intro s hs
    rw [ite_eq_right_iff]
    intro hfield
    rw [halone s (List.mem_reverse.1 hs) hfield, hkey]
  | some key =>
    have hsome : (c.keyBehind rs r.field).isSome = true := by
      rw [keyBehind, List.isSome_findSome?, List.any_eq_true]
      exact ⟨r, List.mem_reverse.2 hr, by simp [hkey]⟩
    obtain ⟨key', hfound⟩ := Option.isSome_iff_exists.1 hsome
    obtain ⟨s, hs, hleads⟩ := List.exists_of_findSome?_eq_some hfound
    rw [Option.ite_none_right_eq_some] at hleads
    rw [hfound, ← hleads.2, halone s (List.mem_reverse.1 hs) hleads.1, hkey]

/-! ### Turns

The key of a field is noted when one of its relations has its turn, and later ones of the same
field come in its place (`TargetsFollow`).
-/

/-- In its turn a relation notes the primary key that it leads to. -/
theorem lookup_targetKeys_noted (htable : c.table? owner = some t) (turn : Nat) (field : String) :
    (c.noted (owner, turn) t).targetKeys.lookup field
      = (c.keyBehind t.relations[turn]?.toList field).or (t.targetKeys.lookup field) := by
  unfold noted finding?
  cases hnext : t.relations[turn]? with
  | none => simp [htable, hnext, keyBehind]
  | some r =>
    simp only [htable, hnext, Option.bind_eq_bind, Option.bind_some, Option.pure_def,
      Option.elim_some, Table.lookup_targetKeys_note]
    by_cases hfield : r.field = field
    · simp [findingOf, keyBehind, primaryKey?, hfield]
    · simp [findingOf, keyBehind, hfield]

/-- Turns of relations of other tables change no primary key that was noted. -/
theorem lookup_targetKeys_noted_of_ne (htable : c.table? name = some t) (hother : position.1 ≠ name)
    (field : String) :
    (c.noted position t).targetKeys.lookup field = t.targetKeys.lookup field := by
  unfold noted
  cases hfinding : c.finding? position with
  | none => rfl
  | some f =>
    rw [Option.elim_some, Table.lookup_targetKeys_note, if_neg]
    rintro ⟨hsame, -⟩
    rw [owner_of_finding? hfinding, name_of_table? htable] at hsame
    exact hother hsame.symm

theorem Follows.primaryKey? (h : before.Follows owner turns c) :
    c.primaryKey? = before.primaryKey? := by
  funext name
  unfold Catalog.primaryKey?
  obtain ⟨hnone, hnone'⟩ | ⟨u₀, u, hbefore, htable, hsame⟩ := rel_cases (h.outlasts name)
  · rw [hnone, hnone']
  · rw [hbefore, htable, Option.map_some, Option.map_some, Table.primaryKey, hsame.kin.keys]
    rfl

/-- The fields of `owner` have the primary keys of the tables that the first `turns` of its
relations lead to, or what they had before if none of these leads to a table. -/
structure TargetsFollow (before : Catalog) (owner : String) (turns : Nat) (c : Catalog) : Prop where
  follows : before.Follows owner turns c
  keys : ∀ (t₀ t : Table) field, before.table? owner = some t₀ → c.table? owner = some t →
    t.targetKeys.lookup field
      = (before.keyBehind (t₀.relations.take turns) field).or (t₀.targetKeys.lookup field)

theorem TargetsFollow.start (c : Catalog) (owner : String) : c.TargetsFollow owner 0 c where
  follows := Follows.start c owner
  keys t₀ t field hbefore htable := by
    rw [hbefore, Option.some.injEq] at htable
    subst htable
    rfl

theorem TargetsFollow.classifyAt_here (h : before.TargetsFollow owner turns c) :
    before.TargetsFollow owner (turns + 1) (c.classifyAt (owner, turns)).1 where
  follows := h.follows.classifyAt_here
  keys t₀ t field hbefore htable := by
    obtain ⟨t, hnow, rfl⟩ := exists_of_table?_noted htable
    have hends : t.relations[turns]?.toList.map Relation.ends
        = t₀.relations[turns]?.toList.map Relation.ends := by
      rw [← Option.toList_map, ← Option.toList_map, ← List.getElem?_map, ← List.getElem?_map,
        (h.follows.outlasts_of hbefore hnow).kin.relations]
    rw [lookup_targetKeys_noted hnow, h.keys t₀ t field hbefore hnow,
      keyBehind_congr h.follows.primaryKey? hends, List.take_add_one, keyBehind_append,
      Option.or_assoc]

theorem TargetsFollow.classifyAt_other (h : before.TargetsFollow owner turns c)
    (hother : position.1 ≠ owner) : before.TargetsFollow owner turns (c.classifyAt position).1 where
  follows := h.follows.classifyAt_other hother
  keys t₀ t field hbefore htable := by
    obtain ⟨t, hnow, rfl⟩ := exists_of_table?_noted htable
    rw [lookup_targetKeys_noted_of_ne hnow hother, h.keys t₀ t field hbefore hnow]

theorem targets_follow (hnodup : c.tableNames.Nodup) (owner : String) :
    c.TargetsFollow owner (c.relationsIn owner).length c.classify.1 := by
  have hrun := classifyAll_follows (I := fun turns => c.TargetsFollow owner turns)
    (fun _ _ h => h.classifyAt_here) (fun _ _ _ hother h => h.classifyAt_other hother)
    c.relationPositions (filter_relationPositions hnodup owner) (TargetsFollow.start c owner)
  rwa [Nat.zero_add] at hrun

/-- **In the end the primary key of a field is the one that its last relation leads to**
(`keyBehind`). -/
theorem targetKey?_of_classify (hnodup : c.tableNames.Nodup)
    (hunknown : ∀ t ∈ c.tables, t.targetKeys = []) (htable : c.classify.1.table? name = some t)
    (r : Relation) : t.targetKey? r = c.classify.1.keyBehind t.relations r.field := by
  have hrun := targets_follow hnodup name
  obtain ⟨t₀, hbefore, hsame⟩ := exists_before hnodup htable
  have hkey := hrun.keys t₀ t r.field hbefore htable
  rw [relationsIn, hbefore, Option.elim_some, List.take_length,
    hunknown t₀ (mem_of_table? hbefore).1, List.lookup_nil, Option.or_none] at hkey
  rw [Table.targetKey?, hkey, keyBehind_congr hrun.follows.primaryKey? hsame.kin.relations]

end Catalog

/-! ### Relations to one item -/

open Catalog Resolver Surface

variable {t u : Table} {r : Relation} {key : Key}

/-- A primary key is complete with its partition just if it sorts nothing. -/
theorem Key.attributes_eq_iff (key : Key) :
    key.attributes = [key.partition] ↔ key.sortKey? = none := by
  cases hsort : key.sortKey? <;> simp [Key.attributes, hsort]

theorem performs_relationRequest (hone : r.toMany = false) (hkey : t.targetKey? r = some key)
    (operation : String) :
    Performs (relationRequest t r) operation ↔
      operation = if key.sortKey?.isSome = true ∧ t.yourKey r = key.partition then "Query"
        else "GetItem" := by
  rw [relationRequest, if_neg (by simp [hone]), performs_relatedItemRequest, isPartialKey, hkey]
  simp

/-- What is got is got by the attribute of the related items that the relation is resolved by. -/
theorem getsBy_relationRequest (hone : r.toMany = false)
    (hgets : Performs (relationRequest t r) "GetItem") :
    GetsBy (relationRequest t r) (t.yourKey r) := by
  rw [relationRequest, if_neg (by simp [hone])] at hgets ⊢
  rw [performs_relatedItemRequest] at hgets
  cases hpartial : isPartialKey t r with
  | false => exact getsBy_relatedItemRequest _ _
  | true =>
    rw [hpartial] at hgets
    exact absurd hgets (by decide)

theorem yourKey_of_targetKey? (hone : r.toMany = false) (hkey : t.targetKey? r = some key) :
    t.yourKey r = (present r.yourKey).getD key.partition := by
  rw [Table.yourKey, if_neg (by simp [hone]), hkey, Option.elim_some]

/-- **The request of a relation to one item gets the item or queries the partition.**  It is
resolved by the partition of the primary key that it leads to, unless it says another attribute.  If
by the partition, it gets the item exactly if the partition is all of the primary key.  A primary
key without sort key is never queried.  Relations on one field share what the last one leads to. -/
theorem relatedItem_of_compileDocument {document : Sdl.Document} {schemaName : String}
    {scope : Sdl.Scope} {k : Compilation}
    (hcompile : (compileDocument schemaName scope document).outcome = .ok k)
    (ht : t ∈ k.catalog.tables) (hr : r ∈ t.relations) (hone : r.toMany = false)
    (hu : k.catalog.table? r.target = some u)
    (hlast : k.catalog.keyBehind t.relations r.field = k.catalog.primaryKey? r.target) :
    (relationReader t r).IsEmitted k.fragments ∧
    t.yourKey r = (present r.yourKey).getD u.primaryKey.partition ∧
    (Performs (relationRequest t r) "Query" ↔ ¬ Performs (relationRequest t r) "GetItem") ∧
    (Performs (relationRequest t r) "GetItem" → GetsBy (relationRequest t r) (t.yourKey r)) ∧
    (t.yourKey r = u.primaryKey.partition → (Performs (relationRequest t r) "GetItem" ↔
      u.primaryKey.attributes = [t.yourKey r])) ∧
    (u.primaryKey.sortKey? = none → Performs (relationRequest t r) "GetItem") := by
  obtain ⟨hgather, hemit⟩ := of_compileDocument hcompile
  obtain ⟨before, hbefore, hnodup, hcatalog⟩ := exists_collected_of_gather hgather
  have htable := table?_of_mem_classify hnodup (hcatalog ▸ ht)
  have hkey : t.targetKey? r = some u.primaryKey := by
    rw [targetKey?_of_classify hnodup (targetKeys_of_collected hbefore) htable,
      ← hcatalog, hlast, primaryKey?, hu, Option.map_some]
  have hperforms := performs_relationRequest hone hkey
  refine ⟨?_, yourKey_of_targetKey? hone hkey, ?_, getsBy_relationRequest hone, ?_, ?_⟩
  · apply isEmitted_of_relation hemit ht hr
    rw [Table.isResolvable, hkey, Option.isSome_some]
  · rw [hperforms, hperforms]
    split <;> simp
  · intro hpartition
    rw [hperforms, hpartition, Key.attributes_eq_iff]
    cases u.primaryKey.sortKey? <;> simp
  · intro hsimple
    rw [hperforms, hsimple]
    simp

/-- Devices that are told apart by two attributes, and their readings. -/
def deviceReadings : Sdl.Document :=
  ⟨[.object
      { description := none, name := "Device", interfaces := []
        directives := [⟨"model", []⟩,
          ⟨"key", [("fields", .list [.string "serial" false, .string "installedAt" false])]⟩]
        fields := [⟨none, "serial", [], .named "String", []⟩,
          ⟨none, "installedAt", [], .named "String", []⟩] },
    tableOf "Reading" [⟨none, "device", [], .named "Device",
      [⟨"connection", [("name", .string "D" false)]⟩]⟩]]⟩

/-- The device of a reading is queried. -/
theorem deviceReadings_queried : ∃ k t r,
    (compileDocument "schema.graphql" none deviceReadings).outcome = .ok k ∧
      t ∈ k.catalog.tables ∧ r ∈ t.relations ∧ (relationReader t r).IsEmitted k.fragments ∧
      t.yourKey r = "serial" ∧ Performs (relationRequest t r) "Query" := by
  have hfacts : Outcome.Holds (compileDocument "schema.graphql" none deviceReadings).outcome
      fun k => ∃ t ∈ k.catalog.tables, ∃ r ∈ t.relations, r.toMany = false ∧
        present r.yourKey = none ∧ (∀ s ∈ t.relations, s.field = r.field → s.target = r.target) ∧
        ∃ u ∈ k.catalog.table? r.target, u.primaryKey.attributes = ["serial", "installedAt"] := by
    decide +kernel
  obtain ⟨k, hcompile, t, ht, r, hr, hone, hplain, halone, u, hu, hattributes⟩ := hfacts
  obtain ⟨hemitted, hyours, hquery, -, hget, -⟩ :=
    relatedItem_of_compileDocument hcompile ht hr hone
    hu (keyBehind_eq_primaryKey? hr halone)
  have hpartition : u.primaryKey.partition = "serial" := (List.cons.inj hattributes).1
  rw [hplain, Option.getD_none] at hyours
  refine ⟨k, t, r, hcompile, ht, hr, hemitted, hyours.trans hpartition, hquery.2 ?_⟩
  rw [hget hyours, hattributes]
  simp

/-- Posts whose authors are known by their addresses. -/
def addressedAuthors : Sdl.Document :=
  ⟨[tableOf "Author" [⟨none, "email", [], .named "String", []⟩],
    tableOf "Post" [⟨none, "author", [], .named "Author",
      [⟨"connection", [("name", .string "P" false), ("yourKey", .string "email" false)]⟩]⟩]]⟩

/-- An author is got by an address, which is no primary key. -/
theorem addressedAuthors_got :
    Outcome.Holds (compileDocument "schema.graphql" none addressedAuthors).outcome fun k =>
      ∃ t ∈ k.catalog.tables, ∃ r ∈ t.relations, r.toMany = false ∧ present r.name = some "P" ∧
        ∃ u ∈ k.catalog.table? r.target, Performs (relationRequest t r) "GetItem" ∧
          u.primaryKey.attributes ≠ [t.yourKey r] := by
  decide +kernel

end SchemaLoom
