/-
What classifying relations leaves alone.

Classification finds out what relations are and what they imply.  What was declared stays: the
tables and their order, and of every table its type, keys, rules and tenancy, and of every
relation its ends and its name.  Tables and catalogs that agree on all that are `Kin`.

A step of classification is a few notes, each about one table: the kind of a relation, its
target, the foreign key that it finds, and what it implies about the table that it leads to.
`Survives` lists these notes once.  A property that survives each of them survives classification
(`Survives.classify`), so that what is proved about classification as a whole needs no look at
its steps.
-/
import SchemaLoom.Catalog.Classification
import SchemaLoom.Proofs.Lists

namespace SchemaLoom

/-- What a relation has from its declaration and keeps. -/
def Relation.ends (r : Relation) : String × String × Sdl.Shape × Option String :=
  (r.field, r.target, r.shape, r.name)

namespace Table

/-- The table `t'` says the same as `t`, apart from what classification finds out. -/
structure Kin (t t' : Table) : Prop where
  definition : t'.definition = t.definition
  keys : t'.keys = t.keys
  relations : t'.relations.map Relation.ends = t.relations.map Relation.ends
  rules : t'.rules = t.rules
  uniqueFields : t'.uniqueFields = t.uniqueFields
  tenancy : t'.tenancy = t.tenancy

theorem Kin.refl (t : Table) : t.Kin t := ⟨rfl, rfl, rfl, rfl, rfl, rfl⟩

theorem Kin.trans {t t' t'' : Table} (h : t.Kin t') (h' : t'.Kin t'') : t.Kin t'' :=
  ⟨h'.definition.trans h.definition, h'.keys.trans h.keys, h'.relations.trans h.relations,
    h'.rules.trans h.rules, h'.uniqueFields.trans h.uniqueFields, h'.tenancy.trans h.tenancy⟩

theorem Kin.name {t t' : Table} (h : t.Kin t') : t'.name = t.name := by
  rw [Table.name, Table.name, h.definition]

/-- Every relation of a table has one with the same ends in its kin. -/
theorem Kin.exists_relation {t t' : Table} (h : t.Kin t') {r' : Relation}
    (hr' : r' ∈ t'.relations) : ∃ r ∈ t.relations, r.ends = r'.ends := by
  have hmem : r'.ends ∈ t'.relations.map Relation.ends := List.mem_map_of_mem hr'
  rw [h.relations] at hmem
  obtain ⟨r, hr, hends⟩ := List.mem_map.1 hmem
  exact ⟨r, hr, hends⟩

/-! ### What is noted about a table -/

theorem kin_setTarget (t : Table) (field : String) (key : Key) : t.Kin (t.setTarget field key) :=
  ⟨rfl, rfl, rfl, rfl, rfl, rfl⟩

theorem kin_setForeignKey (t : Table) (field foreignKey : String) :
    t.Kin (t.setForeignKey field foreignKey) :=
  ⟨rfl, rfl, rfl, rfl, rfl, rfl⟩

theorem kin_setKind (t : Table) (position : Nat) (kind : RelationKind) :
    t.Kin (t.setKind position kind) :=
  ⟨rfl, rfl, map_modify_of_eq (g := fun r => { r with kind := some kind }) (fun _ => rfl)
    position t.relations, rfl, rfl, rfl⟩

theorem kin_addImpliedIndex (t : Table) (i : Index) : t.Kin (t.addImpliedIndex i) := by
  unfold addImpliedIndex
  split
  · exact Kin.refl t
  · exact ⟨rfl, rfl, rfl, rfl, rfl, rfl⟩

theorem kin_addImpliedForeignKey (t : Table) (field : String) :
    t.Kin (t.addImpliedForeignKey field) := by
  unfold addImpliedForeignKey
  split
  · exact Kin.refl t
  · exact ⟨rfl, rfl, rfl, rfl, rfl, rfl⟩

theorem kin_adoptForeignKey (t : Table) (relation owner : String) (foreignKey : Option String) :
    t.Kin (t.adoptForeignKey relation owner foreignKey) := by
  unfold adoptForeignKey
  split
  · exact Kin.refl t
  · refine ⟨rfl, rfl, map_modify_of_eq ?_ _ t.relations, rfl, rfl, rfl⟩
    intro r
    by_cases hopen : r.foreignKey.isNone = true
    · simp [hopen, Relation.ends]
    · simp [hopen]

/-- What a relation makes of the related table has whatever it has with the foreign key adopted, and
with the foreign key and perhaps an index implied. -/
theorem acceptRelation_keeps {P : Table → Prop} {target owner : Table} {r : Relation}
    (hadopt : ∀ name, P (target.adoptForeignKey name owner.name r.foreignKey))
    (hkey : P (target.addImpliedForeignKey (owner.defaultForeignKey r)))
    (hindex : ∀ t name partition, P t → P (t.addImpliedIndex { name, partition })) :
    P (target.acceptRelation owner r).1 := by
  unfold acceptRelation
  cases present r.name with
  | none => exact hkey
  | some name =>
    simp only [Option.bind_some]
    cases
      (target.adoptForeignKey name owner.name r.foreignKey).reciprocal? name owner.name false with
    | none => exact hindex _ _ _ hkey
    | some e => exact hadopt name

/-- **The table that a relation leads to is told about it, but declares what it declared
(`Table.Kin`).** -/
theorem kin_acceptRelation (target owner : Table) (r : Relation) :
    target.Kin (target.acceptRelation owner r).1 :=
  acceptRelation_keeps (fun name => kin_adoptForeignKey target name owner.name r.foreignKey)
    (kin_addImpliedForeignKey target _) fun t _ _ h => h.trans (kin_addImpliedIndex t _)

end Table

namespace Catalog

/-! ### What is noted in a catalog

A note replaces one table by its kin.  Names are kept, so the table that is replaced is the only
one of its name that changes, and the others are where they were.
-/

/-- The catalog `c'` says the same as `c`, apart from what classification finds out. -/
structure Kin (c c' : Catalog) : Prop where
  document : c'.document = c.document
  schemaName : c'.schemaName = c.schemaName
  scope : c'.scope = c.scope
  bindings : c'.bindings = c.bindings
  fieldRules : c'.fieldRules = c.fieldRules
  tableNames : c'.tableNames = c.tableNames
  tables : ∀ t' ∈ c'.tables, ∃ t ∈ c.tables, t.Kin t'

theorem Kin.refl (c : Catalog) : c.Kin c :=
  ⟨rfl, rfl, rfl, rfl, rfl, rfl, fun t ht => ⟨t, ht, Table.Kin.refl t⟩⟩

theorem Kin.trans {c c' c'' : Catalog} (h : c.Kin c') (h' : c'.Kin c'') : c.Kin c'' := by
  refine ⟨h'.document.trans h.document, h'.schemaName.trans h.schemaName, h'.scope.trans h.scope,
    h'.bindings.trans h.bindings, h'.fieldRules.trans h.fieldRules,
    h'.tableNames.trans h.tableNames, ?_⟩
  intro t'' ht''
  obtain ⟨t', ht', hkin'⟩ := h'.tables t'' ht''
  obtain ⟨t, ht, hkin⟩ := h.tables t' ht'
  exact ⟨t, ht, hkin.trans hkin'⟩

theorem mem_of_table? {c : Catalog} {name : String} {t : Table} (h : c.table? name = some t) :
    t ∈ c.tables ∧ t.name = name :=
  ⟨List.mem_of_find?_eq_some h, by simpa using List.find?_some h⟩

/-- Tables that are not replaced have other names. -/
theorem of_mem_putTable {c : Catalog} {t t' : Table} (h : t' ∈ (c.putTable t).tables) :
    t' = t ∨ t' ∈ c.tables ∧ t'.name ≠ t.name := by
  obtain ⟨other, hother, rfl⟩ := List.mem_map.1 h
  by_cases hsame : other.name = t.name
  · exact Or.inl (if_pos hsame)
  · rw [if_neg hsame]
    exact Or.inr ⟨hother, hsame⟩

/-- What a table of a catalog with one table replaced is. -/
theorem mem_putTable {c : Catalog} {t t' : Table} (h : t' ∈ (c.putTable t).tables) :
    t' = t ∨ t' ∈ c.tables :=
  (of_mem_putTable h).imp_right And.left

theorem forall_putTable {P : Table → Prop} {c : Catalog} (h : ∀ t ∈ c.tables, P t) {t : Table}
    (htable : P t) : ∀ other ∈ (c.putTable t).tables, P other := by
  intro other hother
  rcases mem_putTable hother with rfl | hold
  · exact htable
  · exact h other hold

theorem tableNames_putTable (c : Catalog) (t : Table) :
    (c.putTable t).tableNames = c.tableNames := by
  simp only [tableNames, putTable, List.map_map]
  refine List.map_congr_left fun other _ => ?_
  by_cases hsame : other.name = t.name
  · simp [hsame]
  · simp [hsame]

/-- A table may be replaced by its kin. -/
theorem kin_putTable {c : Catalog} {t t' : Table} (htable : t ∈ c.tables) (hkin : t.Kin t') :
    c.Kin (c.putTable t') := by
  refine ⟨rfl, rfl, rfl, rfl, rfl, tableNames_putTable c t', ?_⟩
  intro other hother
  rcases mem_putTable hother with rfl | hold
  · exact ⟨t, htable, hkin⟩
  · exact ⟨other, hold, Table.Kin.refl other⟩

/-- The catalog in which a table, if it is there, knows the foreign key of a field. -/
def noteForeignKey (c : Catalog) (name field foreignKey : String) : Catalog :=
  (c.table? name).elim c fun t => c.putTable (t.setForeignKey field foreignKey)

/-- Settling a relation to many items: its target is asked first, then the foreign key is noted. -/
theorem settleMany_eq (c : Catalog) (t : Table) (r : Relation) :
    c.settleMany t r = (c.table? r.target).elim
      (c.noteForeignKey t.name r.field (t.defaultForeignKey r))
      fun target => (c.putTable (target.acceptRelation t r).1).noteForeignKey t.name r.field
        (target.acceptRelation t r).2 := by
  unfold settleMany noteForeignKey
  cases c.table? r.target with
  | none =>
    dsimp only [Option.elim_none]
    cases c.table? t.name <;> rfl
  | some target =>
    dsimp only [Option.elim_some]
    cases (c.putTable (target.acceptRelation t r).1).table? t.name <;> rfl

/-! ### Whole runs

A property that outlasts everything that is noted outlasts the whole run, since the run does
nothing else.  `Survives` asks for the four changes, and its lemmas follow the definitions of the
run.
-/

/-- The property `P` of catalogs survives all that classification notes.  What is noted about a
relation may rest on a property `Q` of relations that all relations of such catalogs have. -/
structure Survives (P : Catalog → Prop) (Q : Relation → Prop) : Prop where
  relation {c : Catalog} {t : Table} {r : Relation} (h : P c) (htable : t ∈ c.tables)
    (hrelation : r ∈ t.relations) : Q r
  kind {c : Catalog} {t : Table} (h : P c) (htable : t ∈ c.tables) (position : Nat)
    (kind : RelationKind) : P (c.putTable (t.setKind position kind))
  target {c : Catalog} {t : Table} (h : P c) (htable : t ∈ c.tables) (field : String) (key : Key) :
    P (c.putTable (t.setTarget field key))
  foreignKey {c : Catalog} {t : Table} (h : P c) (htable : t ∈ c.tables)
    (field foreignKey : String) : P (c.putTable (t.setForeignKey field foreignKey))
  accept {c : Catalog} {target owner : Table} {r : Relation} (h : P c) (htarget : target ∈ c.tables)
    (howner : owner ∈ c.tables) (hrelation : Q r) :
    P (c.putTable (target.acceptRelation owner r).1)

namespace Survives

variable {P : Catalog → Prop} {Q : Relation → Prop}

/-- What is done to a table if it is there. -/
theorem elim {c : Catalog} (name : String) {change : Table → Catalog} (hhere : P c)
    (hchange : ∀ t ∈ c.tables, P (change t)) : P ((c.table? name).elim c change) := by
  cases htable : c.table? name with
  | none => exact hhere
  | some t => exact hchange t (mem_of_table? htable).1

theorem link (h : Survives P Q) {c : Catalog} (hhere : P c) {t : Table} (htable : t ∈ c.tables)
    (r : Relation) : P (c.link t r) := by
  unfold Catalog.link
  split
  · exact hhere
  · exact h.target hhere htable _ _

theorem settleMany (h : Survives P Q) {c : Catalog} (hhere : P c) {t : Table}
    (htable : t ∈ c.tables)
    {r : Relation} (hrelation : Q r) : P (c.settleMany t r) := by
  have hnote : ∀ (next : Catalog) (foreignKey : String), P next →
      P (next.noteForeignKey t.name r.field foreignKey) := fun next _ hnext =>
    elim t.name hnext fun _ hother => h.foreignKey hnext hother _ _
  rw [settleMany_eq]
  cases htarget : c.table? r.target with
  | none => exact hnote c _ hhere
  | some target =>
    exact hnote _ _ (h.accept hhere (mem_of_table? htarget).1 htable hrelation)

theorem classifyAt (h : Survives P Q) {c : Catalog} (hhere : P c) (position : String × Nat) :
    P (c.classifyAt position).1 := by
  unfold Catalog.classifyAt
  split
  · exact hhere
  next t htable =>
    split
    · exact hhere
    next r hfound =>
      have hmem := (mem_of_table? htable).1
      have hrelation := h.relation hhere hmem (List.mem_of_getElem? hfound)
      have hkind := h.kind hhere hmem position.2 (c.kindOf t r)
      have hlink := elim t.name hkind fun other hother => h.link hkind hother r
      dsimp only
      by_cases hmany : r.toMany = true
      · rw [if_pos hmany]
        exact elim t.name hlink fun other hother => h.settleMany hlink hother hrelation
      · rw [if_neg hmany]
        exact hlink

theorem classifyAll (h : Survives P Q) (positions : List (String × Nat)) {c : Catalog}
    (hhere : P c) : P (c.classifyAll positions).1 := by
  induction positions generalizing c with
  | nil => exact hhere
  | cons position rest ih => exact ih (h.classifyAt hhere position)

/-- **What survives every note survives classification**, which is a fold of `classifyAt` over the
relations. -/
theorem classify (h : Survives P Q) {c : Catalog} (hhere : P c) : P c.classify.1 :=
  h.classifyAll c.relationPositions hhere

end Survives

theorem survives_kin (c : Catalog) : Survives c.Kin fun _ => True where
  relation _ _ _ := trivial
  kind h htable position kind := h.trans (kin_putTable htable (Table.kin_setKind _ position kind))
  target h htable field key := h.trans (kin_putTable htable (Table.kin_setTarget _ field key))
  foreignKey h htable field key :=
    h.trans (kin_putTable htable (Table.kin_setForeignKey _ field key))
  accept h htarget _ _ := h.trans (kin_putTable htarget (Table.kin_acceptRelation _ _ _))

/-- **Classification changes nothing that was declared.** -/
theorem kin_classify (c : Catalog) : c.Kin c.classify.1 := (survives_kin c).classify (Kin.refl c)

end Catalog

end SchemaLoom
