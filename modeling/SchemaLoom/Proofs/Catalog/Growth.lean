/-
Names that stay apart, and tables that only grow.

A table gathers keys, unique fields and what relations of other tables imply on it, and refuses
or passes over what is there already.  So nothing is named twice in it (`Table.IsDistinct`).
Nothing that it has gathered is ever taken away or replaced, more of it comes behind
(`Table.Grows`).

Both hold of what is added to a table by hand (`grows_take`) and of what classification notes
about it (`grows_acceptRelation`).  For a catalog, growing means that every table stands where it
stood and has grown.  `GrowsApart` carries both through classification as one invariant, since a
table grows only from one in which names are apart.
-/
import SchemaLoom.Proofs.Catalog.History
import SchemaLoom.Proofs.Catalog.KeySchema

namespace SchemaLoom

namespace Table

/-! ### Names within a table

Names are kept apart by being looked for before anything is added.  Each addition is therefore
refused or changes nothing if the name is there.
-/

/-- Nothing is named twice in `t`: no key, no unique field, and nothing that is implied. -/
structure IsDistinct (t : Table) : Prop where
  keyNames : (t.keys.map (·.name)).Nodup
  uniqueFields : t.uniqueFields.Nodup
  impliedForeignKeys : t.impliedForeignKeys.Nodup
  impliedIndexNames : (t.impliedIndexes.map (·.name)).Nodup

theorem isDistinct_new (definition : Sdl.ObjectType) (provider : String) :
    IsDistinct { definition, provider } :=
  ⟨List.nodup_nil, List.nodup_nil, List.nodup_nil, List.nodup_nil⟩

theorem IsDistinct.addUnique {t : Table} (h : t.IsDistinct) (field : String) :
    (t.addUnique field).IsDistinct := by
  unfold Table.addUnique
  split
  · exact h
  next hnew =>
    have hfield : field ∉ t.uniqueFields := by simpa using hnew
    exact { h with uniqueFields := List.concat_eq_append ▸ h.uniqueFields.concat hfield }

theorem IsDistinct.addImpliedForeignKey {t : Table} (h : t.IsDistinct) (field : String) :
    (t.addImpliedForeignKey field).IsDistinct := by
  unfold Table.addImpliedForeignKey
  split
  · exact h
  next hnew =>
    have hfield : field ∉ t.impliedForeignKeys := by simpa using hnew
    exact { h with
      impliedForeignKeys := List.concat_eq_append ▸ h.impliedForeignKeys.concat hfield }

theorem IsDistinct.addImpliedIndex {t : Table} (h : t.IsDistinct) (i : Index) :
    (t.addImpliedIndex i).IsDistinct := by
  unfold Table.addImpliedIndex
  split
  · exact h
  next hnew =>
    refine { h with impliedIndexNames := ?_ }
    rw [List.map_append, List.map_singleton, ← List.concat_eq_append]
    exact h.impliedIndexNames.concat (by simpa using hnew)

theorem IsDistinct.take {t t' : Table} (h : t.IsDistinct) {addition : Addition}
    (htake : t.take addition = .ok t') : t'.IsDistinct := by
  have hkeys := (extendsKeys_take htake).nodup h.keyNames
  cases addition with
  | key key =>
    simp only [Table.take, addKey] at htake
    split at htake
    · cases htake
    · cases htake
      exact { h with keyNames := hkeys }
  | unique field =>
    cases htake
    exact h.addUnique field
  | impliedIndex i =>
    cases htake
    exact h.addImpliedIndex i
  | impliedForeignKey field =>
    cases htake
    exact h.addImpliedForeignKey field
  | _ =>
    cases htake
    exact { h with }

/-- The primary key is the only key without a name, or else the default; it has one partition
attribute, and one more at most. -/
structure HasPrimaryKey (t : Table) : Prop where
  only : ∀ key ∈ t.keys, key.name = none → t.primaryKey = key
  default : (∀ key ∈ t.keys, key.name ≠ none) → t.primaryKey = defaultKey
  attributes : ∃ first rest, t.primaryKey.fields = first :: rest ∧
    t.primaryKey.attributes = if rest = [] then [first] else [first, "#".intercalate rest]

theorem IsDistinct.hasPrimaryKey {t : Table} (h : t.IsDistinct) : t.HasPrimaryKey where
  only _ hkey hname := primaryKey_eq h.keyNames hkey hname
  default hnamed := by
    have hnone : t.keys.find? (·.isPrimary) = none := by
      rw [List.find?_eq_none]
      intro key hkey hprimary
      exact hnamed key hkey (by simpa [Key.isPrimary] using hprimary)
    rw [primaryKey, hnone]
    rfl
  attributes := by
    refine ⟨t.primaryKey.partition, t.primaryKey.sortFields, rfl, ?_⟩
    rw [Key.attributes, Key.sortKey?]
    cases t.primaryKey.sortFields <;> simp [keySeparator]

/-! ### Growing

Growing is a structure of prefixes, one for each list that a table gathers, so it is reflexive and
transitive part by part, and each addition extends one list.
-/

/-- The table `t'` is `t` grown: it is the table of the same type, and has all that `t` has
gathered, in its order and in front of what has been added. -/
structure Grows (t t' : Table) : Prop where
  definition : t'.definition = t.definition
  provider : t'.provider = t.provider
  keys : t.keys <+: t'.keys
  relations : t.relations.map Relation.ends <+: t'.relations.map Relation.ends
  rules : t.rules <+: t'.rules
  uniqueFields : t.uniqueFields <+: t'.uniqueFields
  impliedIndexes : t.impliedIndexes <+: t'.impliedIndexes
  impliedForeignKeys : t.impliedForeignKeys <+: t'.impliedForeignKeys

namespace Grows

theorem refl (t : Table) : t.Grows t :=
  ⟨rfl, rfl, List.prefix_rfl, List.prefix_rfl, List.prefix_rfl, List.prefix_rfl, List.prefix_rfl,
    List.prefix_rfl⟩

theorem trans {t t' t'' : Table} (h : t.Grows t') (h' : t'.Grows t'') : t.Grows t'' where
  definition := h'.definition.trans h.definition
  provider := h'.provider.trans h.provider
  keys := h.keys.trans h'.keys
  relations := h.relations.trans h'.relations
  rules := h.rules.trans h'.rules
  uniqueFields := h.uniqueFields.trans h'.uniqueFields
  impliedIndexes := h.impliedIndexes.trans h'.impliedIndexes
  impliedForeignKeys := h.impliedForeignKeys.trans h'.impliedForeignKeys

theorem name {t t' : Table} (h : t.Grows t') : t'.name = t.name :=
  congrArg Sdl.ObjectType.name h.definition

/-- Kin that has kept its storage and what is implied has grown. -/
theorem of_kin {t t' : Table} (h : t.Kin t') (hprovider : t'.provider = t.provider)
    (hindexes : t.impliedIndexes <+: t'.impliedIndexes)
    (hforeign : t.impliedForeignKeys <+: t'.impliedForeignKeys) : t.Grows t' where
  definition := h.definition
  provider := hprovider
  keys := h.keys ▸ List.prefix_rfl
  relations := h.relations ▸ List.prefix_rfl
  rules := h.rules ▸ List.prefix_rfl
  uniqueFields := h.uniqueFields ▸ List.prefix_rfl
  impliedIndexes := hindexes
  impliedForeignKeys := hforeign

end Grows

theorem grows_addUnique (t : Table) (field : String) : t.Grows (t.addUnique field) := by
  unfold addUnique
  split
  · exact Grows.refl t
  · exact { Grows.refl t with uniqueFields := List.prefix_append _ _ }

theorem grows_addImpliedIndex (t : Table) (i : Index) : t.Grows (t.addImpliedIndex i) := by
  unfold addImpliedIndex
  split
  · exact Grows.refl t
  · exact { Grows.refl t with impliedIndexes := List.prefix_append _ _ }

theorem grows_addImpliedForeignKey (t : Table) (field : String) :
    t.Grows (t.addImpliedForeignKey field) := by
  unfold addImpliedForeignKey
  split
  · exact Grows.refl t
  · exact { Grows.refl t with impliedForeignKeys := List.prefix_append _ _ }

theorem grows_take {t t' : Table} {addition : Addition} (h : t.take addition = .ok t') :
    t.Grows t' := by
  cases addition with
  | key key =>
    simp only [take, addKey] at h
    split at h
    · cases h
    · cases h
      exact { Grows.refl t with keys := List.prefix_append _ _ }
  | relation r =>
    cases h
    refine { Grows.refl t with relations := ?_ }
    rw [addRelation, List.map_append]
    exact List.prefix_append _ _
  | rule rule =>
    cases h
    exact { Grows.refl t with rules := List.prefix_append _ _ }
  | unique field =>
    cases h
    exact t.grows_addUnique field
  | tenancy tenancy =>
    cases h
    exact { Grows.refl t with }
  | impliedIndex i =>
    cases h
    exact t.grows_addImpliedIndex i
  | impliedForeignKey field =>
    cases h
    exact t.grows_addImpliedForeignKey field

/-! ### What classification notes about a table -/

theorem grows_adoptForeignKey (t : Table) (relation owner : String) (foreignKey : Option String) :
    t.Grows (t.adoptForeignKey relation owner foreignKey) := by
  have hkin := t.kin_adoptForeignKey relation owner foreignKey
  unfold adoptForeignKey at hkin ⊢
  split
  · exact Grows.refl t
  next position hposition =>
    rw [hposition] at hkin
    exact Grows.of_kin hkin rfl List.prefix_rfl List.prefix_rfl

theorem grows_acceptRelation (target owner : Table) (r : Relation) :
    target.Grows (target.acceptRelation owner r).1 :=
  acceptRelation_keeps (fun name => target.grows_adoptForeignKey name owner.name r.foreignKey)
    (target.grows_addImpliedForeignKey _) fun t _ _ h => h.trans (t.grows_addImpliedIndex _)

theorem IsDistinct.adoptForeignKey {t : Table} (h : t.IsDistinct) (relation owner : String)
    (foreignKey : Option String) : (t.adoptForeignKey relation owner foreignKey).IsDistinct := by
  unfold Table.adoptForeignKey
  split
  · exact h
  · exact { h with }

theorem IsDistinct.acceptRelation {target : Table} (h : target.IsDistinct) (owner : Table)
    (r : Relation) :
    (target.acceptRelation owner r).1.IsDistinct :=
  acceptRelation_keeps (fun name => h.adoptForeignKey name owner.name r.foreignKey)
    (h.addImpliedForeignKey _) fun _ _ _ ht => ht.addImpliedIndex _

end Table

namespace Catalog

variable {c c' c'' : Catalog}

/-! ### Names within a catalog

A step changes the table of one name.  So it is enough that this table grows and keeps its names
apart.
-/

/-- Tables of `c` have names of their own, and nothing is named twice in any of them. -/
structure IsDistinct (c : Catalog) : Prop where
  tableNames : c.tableNames.Nodup
  tables : ∀ t ∈ c.tables, t.IsDistinct

/-- The catalog `c'` is `c` grown: every table stands where it stood and has grown. -/
def Grows (c c' : Catalog) : Prop :=
  ∀ (i : Nat) (t : Table), c.tables[i]? = some t → ∃ t', c'.tables[i]? = some t' ∧ t.Grows t'

theorem Grows.refl (c : Catalog) : c.Grows c := fun _ t htable => ⟨t, htable, Table.Grows.refl t⟩

theorem Grows.trans (h : c.Grows c') (h' : c'.Grows c'') : c.Grows c'' := by
  intro i t htable
  obtain ⟨t', htable', hgrows⟩ := h i t htable
  obtain ⟨t'', htable'', hgrows'⟩ := h' i t' htable'
  exact ⟨t'', htable'', hgrows.trans hgrows'⟩

theorem IsDistinct.put (h : c.IsDistinct) {t : Table} (ht : t.IsDistinct) :
    (c.putTable t).IsDistinct where
  tableNames := (tableNames_putTable c t).symm ▸ h.tableNames
  tables := forall_putTable h.tables ht

/-- A table may be put in the place of the one that it has grown from. -/
theorem IsDistinct.grows_put (h : c.IsDistinct) {t t' : Table} (ht : t ∈ c.tables)
    (hgrows : t.Grows t') :
    c.Grows (c.putTable t') := by
  intro i u hu
  refine ⟨if u.name = t'.name then t' else u, by simp [putTable, hu], ?_⟩
  by_cases hname : u.name = t'.name
  · have hsame : u = t := List.inj_on_of_nodup_map h.tableNames (List.mem_of_getElem? hu) ht
      (hname.trans hgrows.name)
    rw [if_pos hname, hsame]
    exact hgrows
  · rw [if_neg hname]
    exact Table.Grows.refl u

/-- Putting a table where it is changes nothing. -/
theorem IsDistinct.put_self (h : c.IsDistinct) {t : Table} (ht : t ∈ c.tables) :
    c.putTable t = c := by
  have hsame : c.tables.map (fun u => if u.name = t.name then t else u) = c.tables := by
    refine (List.map_congr_left fun u hu => ?_).trans (List.map_id c.tables)
    by_cases hname : u.name = t.name
    · rw [if_pos hname]
      exact (List.inj_on_of_nodup_map h.tableNames hu ht hname).symm
    · rw [if_neg hname]
      rfl
  rw [putTable, hsame]

theorem IsDistinct.add (h : c.IsDistinct) {t : Table} (ht : t.IsDistinct)
    (hnew : c.table? t.name = none) :
    IsDistinct { c with tables := c.tables ++ [t] } where
  tableNames := nodup_tableNames_register h.tableNames hnew
  tables u hu := by
    rcases List.mem_append.1 hu with hold | hadded
    · exact h.tables u hold
    · exact List.mem_singleton.1 hadded ▸ ht

theorem grows_add (c : Catalog) (t : Table) : c.Grows { c with tables := c.tables ++ [t] } := by
  intro i u hu
  refine ⟨u, ?_, Table.Grows.refl u⟩
  rw [List.getElem?_append_left (List.getElem?_eq_some_iff.1 hu).1]
  exact hu

/-- The catalog `c'` is `c` grown, and names are apart in it. -/
structure GrowsApart (c c' : Catalog) : Prop where
  grows : c.Grows c'
  distinct : c'.IsDistinct

theorem GrowsApart.put (h : c.GrowsApart c') {t t' : Table} (ht : t ∈ c'.tables)
    (hgrows : t.Grows t')
    (hdistinct : t'.IsDistinct) : c.GrowsApart (c'.putTable t') :=
  ⟨h.grows.trans (h.distinct.grows_put ht hgrows), h.distinct.put hdistinct⟩

/-- Each thing that classification notes about a table lets the table grow. -/
theorem survives_growsApart (c : Catalog) : Survives c.GrowsApart fun _ => True where
  relation _ _ _ := trivial
  kind h htable position kind :=
    h.put htable (.of_kin (Table.kin_setKind _ position kind) rfl List.prefix_rfl List.prefix_rfl)
      { h.distinct.tables _ htable with }
  target h htable field key :=
    h.put htable (.of_kin (Table.kin_setTarget _ field key) rfl List.prefix_rfl List.prefix_rfl)
      { h.distinct.tables _ htable with }
  foreignKey h htable field foreignKey :=
    h.put htable
      (.of_kin (Table.kin_setForeignKey _ field foreignKey) rfl List.prefix_rfl List.prefix_rfl)
      { h.distinct.tables _ htable with }
  accept h htarget _ _ :=
    h.put htarget (Table.grows_acceptRelation _ _ _)
      ((h.distinct.tables _ htarget).acceptRelation _ _)

/-- **Classification lets tables grow, and keeps names apart (`GrowsApart`).** -/
theorem IsDistinct.growsApart_classify (h : c.IsDistinct) : c.GrowsApart c.classify.1 :=
  (survives_growsApart c).classify ⟨Grows.refl c, h⟩

end Catalog

end SchemaLoom
