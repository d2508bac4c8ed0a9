/-
Which names the inputs of a table declare.

Three inputs are made of the stored fields of a table, one field after the other, and in each of
them a name that was declared before is not declared again.  They leave out different fields:
what no input can hold is missing in a new and in a changed item, but not if it belongs to the
key of a changed one; a filter has values only of scalars and enums.  Yet new and changed items
have the same names, since the fields of the key are added to both at the end (`IsWritten`).

Each builder is told in two steps: when it has a result, which is a matter of types that can be
told (`IsTold`), and which names the result has.  The three differ in what they make of a field
that is no relation, and `Keeps` says which fields that leaves.

A field is looked up by its name.  So of several fields of one name the first says the type, and
of several relations of one field the first says the attribute, for each of them.
-/
import SchemaLoom.Proofs.Catalog.Acceptance
import SchemaLoom.Proofs.Catalog.IndexSource
import SchemaLoom.Proofs.Surface.TenantField

namespace SchemaLoom

namespace Surface

open Catalog

variable {c : Catalog} {t : Table} {f : Sdl.Field} {es : List Entry} {name input : String}

/-! ### Fields of which entries are made -/

/-- The types that new and changed items need can be told: those of the stored fields, and those of
the fields of the key. -/
structure IsTold (t : Table) : Prop where
  stored : ∀ f ∈ storedFields t, ∃ shape, fieldShape t f = .ok shape
  key : ∀ name ∈ t.primaryKey.fields, ∃ base, t.keyFieldType name = .ok base

/-- The type of the field `f` is of a category that `admits` allows. -/
def IsOf (c : Catalog) (t : Table) (admits : Category → Prop) (f : Sdl.Field) : Prop :=
  ∃ shape, fieldShape t f = .ok shape ∧ admits (c.category shape.base)

/-- What `make` makes of a field that is no relation is kept just if `kept` holds of the field. -/
def Keeps (t : Table) (make : Sdl.Field → Except Fault (Option Entry)) (kept : Sdl.Field → Prop) :
    Prop :=
  ∀ f x, t.relation? f.name = none → make f = .ok x → (x.isSome = true ↔ kept f)

/-- Inputs hold whatever is not opaque. -/
theorem isSome_inputShape? {action : Access.Action} {shape : Sdl.Shape} :
    (inputShape? c action shape).isSome = true ↔ c.category shape.base ≠ .opaqueType := by
  unfold inputShape?
  cases c.category shape.base <;> simp

/-- Scalars and enums can be filtered. -/
theorem isSome_filterInput? : (c.filterInput? name).isSome = true ↔
    c.category name = .scalar ∨ c.category name = .enum := by
  unfold Catalog.filterInput?
  cases c.category name <;> simp

theorem keeps_createEntry (isGenerated : Bool) :
    Keeps t (createEntry c t isGenerated) (IsOf c t (· ≠ .opaqueType)) := by
  intro f x hnone h
  unfold createEntry at h
  obtain ⟨shape, hshape, h⟩ := Outcome.of_bind_eq_ok h
  rw [hnone] at h
  cases h
  have hbase :
      (if f.name = t.primaryKey.partition && isGenerated then shape.optional else shape).base
      = shape.base := by
    split <;> rfl
  rw [Option.isSome_map, isSome_inputShape?, hbase]
  constructor
  · intro hheld
    exact ⟨shape, hshape, hheld⟩
  · rintro ⟨other, hother, hheld⟩
    cases hshape.symm.trans hother
    exact hheld

/-- Fields of the key are kept in a changed item, whatever they hold. -/
theorem keeps_updateEntry :
    Keeps t (updateEntry c t)
      fun f => f.name ∈ t.primaryKey.fields ∨ IsOf c t (· ≠ .opaqueType) f := by
  intro f x hnone h
  unfold updateEntry at h
  obtain ⟨shape, hshape, h⟩ := Outcome.of_bind_eq_ok h
  rw [hnone] at h
  cases h
  by_cases hkey : f.name ∈ t.primaryKey.fields
  · simp [hkey]
  · rw [if_neg (by simpa using hkey), Option.isSome_map, isSome_inputShape?]
    constructor
    · intro hheld
      exact Or.inr ⟨shape, hshape, hheld⟩
    · rintro (hhere | ⟨other, hother, hheld⟩)
      · exact absurd hhere hkey
      · cases hshape.symm.trans hother
        exact hheld

theorem keeps_filterEntry :
    Keeps t (filterEntry c t) (IsOf c t fun category => category = .scalar ∨ category = .enum) := by
  intro f x hnone h
  unfold filterEntry at h
  rw [hnone] at h
  obtain ⟨shape, hshape, h⟩ := Outcome.of_bind_eq_ok h
  cases h
  rw [Option.isSome_map, isSome_filterInput?]
  constructor
  · intro hheld
    exact ⟨shape, hshape, hheld⟩
  · rintro ⟨other, hother, hheld⟩
    cases hshape.symm.trans hother
    exact hheld

theorem names_filterEntry : Names t (filterEntry c t) where
  relation f r x hrelation h := by
    unfold filterEntry at h
    rw [hrelation] at h
    cases h
    cases r.toMany <;> rfl
  field f e hnone h := by
    unfold filterEntry at h
    rw [hnone] at h
    obtain ⟨shape, -, h⟩ := Outcome.of_bind_eq_ok h
    obtain ⟨given, -, rfl⟩ := Option.map_eq_some_iff.1 (Except.ok.inj h)
    rfl

/-! ### Results

Each kind of entry can be made if the shape of its field can be told, and otherwise not.
-/

theorem exists_createEntry_iff (isGenerated : Bool) :
    (∃ x, createEntry c t isGenerated f = .ok x) ↔ ∃ shape, fieldShape t f = .ok shape := by
  refine Outcome.exists_bind_iff fun shape => ?_
  cases t.relation? f.name <;> exact ⟨_, rfl⟩

theorem exists_updateEntry_iff :
    (∃ x, updateEntry c t f = .ok x) ↔ ∃ shape, fieldShape t f = .ok shape := by
  refine Outcome.exists_bind_iff fun shape => ?_
  cases t.relation? f.name <;> exact ⟨_, rfl⟩

theorem exists_filterEntry_iff : (∃ x, filterEntry c t f = .ok x) ↔
    (t.relation? f.name = none → ∃ shape, fieldShape t f = .ok shape) := by
  unfold filterEntry
  cases t.relation? f.name with
  | some r => simp
  | none =>
    refine (Outcome.exists_bind_iff fun shape => ⟨_, rfl⟩).trans ?_
    simp

theorem exists_keyEntriesOf_iff : (∃ es, keyEntriesOf t = .ok es) ↔
    ∀ name ∈ t.primaryKey.fields, ∃ base, t.keyFieldType name = .ok base := by
  refine Outcome.exists_mapM_iff.trans ?_
  refine forall₂_congr fun name _ => Outcome.exists_bind_iff fun base => ⟨_, rfl⟩

theorem exists_createFields_iff : (∃ es, createFields c t = .ok es) ↔ IsTold t := by
  constructor
  · rintro ⟨es, h⟩
    unfold createFields at h
    obtain ⟨isGenerated, -, h⟩ := Outcome.of_bind_eq_ok h
    obtain ⟨own, hown, h⟩ := Outcome.of_bind_eq_ok h
    obtain ⟨keys, hkeys, -⟩ := Outcome.of_bind_eq_ok h
    refine ⟨fun f hf => (exists_createEntry_iff (c := c) isGenerated).1 ?_, fun name hname => ?_⟩
    · exact Outcome.exists_mapM_iff.1 ⟨own, hown⟩ f hf
    · obtain ⟨e, he⟩ := Outcome.exists_mapM_iff.1 ⟨keys, hkeys⟩ name hname
      obtain ⟨base, hbase, -⟩ := Outcome.of_bind_eq_ok he
      exact ⟨base, hbase⟩
  · intro h
    refine Outcome.exists_bind ?_ fun isGenerated => ?_
    · exact Outcome.exists_bind (h.key _ List.mem_cons_self) fun _ => ⟨_, rfl⟩
    · refine Outcome.exists_bind (Outcome.exists_mapM fun f hf => ?_) fun _ => ?_
      · exact (exists_createEntry_iff isGenerated).2 (h.stored f hf)
      · refine Outcome.exists_bind (Outcome.exists_mapM fun name hname => ?_) fun _ => ⟨_, rfl⟩
        exact Outcome.exists_bind (h.key name hname) fun _ => ⟨_, rfl⟩

theorem exists_updateFields_iff : (∃ es, updateFields c t = .ok es) ↔ IsTold t := by
  constructor
  · rintro ⟨es, h⟩
    unfold updateFields at h
    obtain ⟨own, hown, h⟩ := Outcome.of_bind_eq_ok h
    obtain ⟨keys, hkeys, -⟩ := Outcome.of_bind_eq_ok h
    refine ⟨fun f hf => (exists_updateEntry_iff (c := c)).1 ?_,
      exists_keyEntriesOf_iff.1 ⟨keys, hkeys⟩⟩
    exact Outcome.exists_mapM_iff.1 ⟨own, hown⟩ f hf
  · intro h
    refine Outcome.exists_bind (Outcome.exists_mapM fun f hf => ?_) fun _ => ?_
    · exact exists_updateEntry_iff.2 (h.stored f hf)
    · exact Outcome.exists_bind (exists_keyEntriesOf_iff.2 h.key) fun _ => ⟨_, rfl⟩

theorem exists_filterFields_iff : (∃ es, filterFields c t input = .ok es) ↔
    ∀ f ∈ storedFields t, t.relation? f.name = none → ∃ shape, fieldShape t f = .ok shape := by
  refine (Outcome.exists_bind_iff fun own => ⟨_, rfl⟩).trans (Outcome.exists_mapM_iff.trans ?_)
  exact forall₂_congr fun f _ => exists_filterEntry_iff

/-! ### Names -/

/-- A stored field that is no relation has the name `name`, and its type is of a category that
`admits` allows. -/
def HoldsValue (c : Catalog) (t : Table) (admits : Category → Prop) (name : String) : Prop :=
  ∃ f ∈ storedFields t, f.name = name ∧ t.relation? f.name = none ∧ IsOf c t admits f

/-- The name `name` is declared for new and changed items. -/
inductive IsWritten (c : Catalog) (t : Table) (name : String) : Prop where
  | field (h : HoldsValue c t (· ≠ .opaqueType) name)
  | relation (h : GivesRelation t name)
  | implied (h : name ∈ t.impliedForeignKeys)
  | key (h : name ∈ t.primaryKey.fields)

/-- The name `name` is declared in a filter. -/
inductive IsFiltered (c : Catalog) (t : Table) (name : String) : Prop where
  | field (h : HoldsValue c t (fun category => category = .scalar ∨ category = .enum) name)
  | relation (h : GivesRelation t name)
  | implied (h : name ∈ t.impliedForeignKeys)
  | word (h : name ∈ ["and", "or", "not"])

/-- The words that join filters. -/
def filterWords : List String := ["and", "or", "not"]

/-- A filter has a value of the name `name`. -/
inductive FiltersValue (c : Catalog) (t : Table) (name : String) : Prop where
  | field (h : HoldsValue c t (fun category => category = .scalar ∨ category = .enum) name)
  | relation (h : GivesRelation t name)
  | implied (h : name ∈ t.impliedForeignKeys)

/-- What is made of the stored fields has the names of those that are kept, and the attributes of
relations to one item. -/
theorem mem_names_own_iff {make : Sdl.Field → Except Fault (Option Entry)}
    {kept : Sdl.Field → Prop} (hnames : Names t make) (hkeeps : Keeps t make kept)
    {own : List (Option Entry)} (hown : (storedFields t).mapM make = .ok own) :
    name ∈ (own.filterMap id).map (·.name) ↔
      (∃ f ∈ storedFields t, f.name = name ∧ t.relation? f.name = none ∧ kept f) ∨
        GivesRelation t name := by
  constructor
  · intro h
    simp only [List.mem_map, List.mem_filterMap, id_eq, exists_eq_right] at h
    obtain ⟨e, he, rfl⟩ := h
    obtain ⟨f, hf, hmade⟩ := Outcome.exists_of_mem_mapM hown he
    cases hrelation : t.relation? f.name with
    | none =>
      refine Or.inl ⟨f, hf, (hnames.field f e hrelation hmade).symm, hrelation, ?_⟩
      exact (hkeeps f _ hrelation hmade).1 rfl
    | some r =>
      have hkey := hnames.relation f r _ hrelation hmade
      cases hmany : r.toMany with
      | true => simp [hmany] at hkey
      | false => exact Or.inr ⟨f, hf, r, hrelation, hmany, by simpa [hmany] using hkey.symm⟩
  · rintro (⟨f, hf, rfl, hnone, hkept⟩ | hgiven)
    · obtain ⟨x, hx, hmade⟩ := Outcome.exists_result_of_mem hown hf
      obtain ⟨e, rfl⟩ := Option.isSome_iff_exists.1 ((hkeeps f x hnone hmade).2 hkept)
      refine List.mem_map.2 ⟨e, List.mem_filterMap.2 ⟨some e, hx, rfl⟩, ?_⟩
      exact hnames.field f e hnone hmade
    · exact mem_names_own_of_givesRelation hnames hown hgiven

theorem names_implied (t : Table) (base : String) :
    (t.impliedForeignKeys.map fun key => Entry.plain key base).map (·.name)
      = t.impliedForeignKeys := by
  rw [List.map_map]
  exact List.map_id _

/-- New items have the names that are written. -/
theorem mem_names_createFields_iff (h : createFields c t = .ok es) :
    name ∈ es.map (·.name) ↔ IsWritten c t name := by
  unfold createFields at h
  obtain ⟨isGenerated, -, h⟩ := Outcome.of_bind_eq_ok h
  obtain ⟨own, hown, h⟩ := Outcome.of_bind_eq_ok h
  obtain ⟨keys, hkeys, h⟩ := Outcome.of_bind_eq_ok h
  cases h
  have hkeynames : keys.map (·.name) = t.primaryKey.fields := by
    refine names_of_mapM (fun name e he => ?_) hkeys
    obtain ⟨base, -, he⟩ := Outcome.of_bind_eq_ok he
    cases he
    split <;> rfl
  rw [mem_names_firstOfName, List.map_append, List.map_append, List.mem_append, List.mem_append,
    names_implied, hkeynames,
    mem_names_own_iff (names_createEntry isGenerated) (keeps_createEntry isGenerated) hown]
  constructor
  · rintro (((hfield | hgiven) | himplied) | hkey)
    · exact .field hfield
    · exact .relation hgiven
    · exact .implied himplied
    · exact .key hkey
  · rintro (hfield | hgiven | himplied | hkey)
    · exact Or.inl (Or.inl (Or.inl hfield))
    · exact Or.inl (Or.inl (Or.inr hgiven))
    · exact Or.inl (Or.inr himplied)
    · exact Or.inr hkey

/-- Changed items have the same names: a field of the key that they keep is in the key of new
ones. -/
theorem mem_names_updateFields_iff (h : updateFields c t = .ok es) :
    name ∈ es.map (·.name) ↔ IsWritten c t name := by
  unfold updateFields at h
  obtain ⟨own, hown, h⟩ := Outcome.of_bind_eq_ok h
  obtain ⟨keys, hkeys, h⟩ := Outcome.of_bind_eq_ok h
  cases h
  rw [mem_names_firstOfName, List.map_append, List.map_append, List.mem_append, List.mem_append,
    names_implied, names_of_keyEntriesOf hkeys,
    mem_names_own_iff names_updateEntry keeps_updateEntry hown]
  constructor
  · rintro (((⟨f, hf, rfl, hnone, hkey | hheld⟩ | hgiven) | himplied) | hkey)
    · exact .key hkey
    · exact .field ⟨f, hf, rfl, hnone, hheld⟩
    · exact .relation hgiven
    · exact .implied himplied
    · exact .key hkey
  · rintro (⟨f, hf, rfl, hnone, hheld⟩ | hgiven | himplied | hkey)
    · exact Or.inl (Or.inl (Or.inl ⟨f, hf, rfl, hnone, Or.inr hheld⟩))
    · exact Or.inl (Or.inl (Or.inr hgiven))
    · exact Or.inl (Or.inr himplied)
    · exact Or.inr hkey

/-- A filter has a value of every name that can be filtered, once, and the words behind them. -/
theorem exists_values_of_filterFields (h : filterFields c t input = .ok es) :
    ∃ values : List Entry, es.map (·.name) = values.map (·.name) ++ filterWords ∧
      (values.map (·.name)).Nodup ∧ ∀ name, name ∈ values.map (·.name) ↔ FiltersValue c t name := by
  unfold filterFields at h
  obtain ⟨own, hown, h⟩ := Outcome.of_bind_eq_ok h
  cases h
  refine ⟨_, List.map_append, Entry.nodup_firstOfName _, fun name => ?_⟩
  rw [mem_names_firstOfName, List.map_append, List.mem_append, names_implied,
    mem_names_own_iff names_filterEntry keeps_filterEntry hown]
  constructor
  · rintro ((hfield | hgiven) | himplied)
    · exact .field hfield
    · exact .relation hgiven
    · exact .implied himplied
  · rintro (hfield | hgiven | himplied)
    · exact Or.inl (Or.inl hfield)
    · exact Or.inl (Or.inr hgiven)
    · exact Or.inr himplied

/-- Filters have the names that are filtered. -/
theorem mem_names_filterFields_iff (h : filterFields c t input = .ok es) :
    name ∈ es.map (·.name) ↔ IsFiltered c t name := by
  obtain ⟨values, hnames, -, hvalues⟩ := exists_values_of_filterFields h
  rw [hnames, List.mem_append, hvalues]
  constructor
  · rintro ((hfield | hgiven | himplied) | hword)
    · exact .field hfield
    · exact .relation hgiven
    · exact .implied himplied
    · exact .word hword
  · rintro (hfield | hgiven | himplied | hword)
    · exact Or.inl (.field hfield)
    · exact Or.inl (.relation hgiven)
    · exact Or.inl (.implied himplied)
    · exact Or.inr hword

/-- No name is declared twice for new items. -/
theorem nodup_names_createFields (h : createFields c t = .ok es) : (es.map (·.name)).Nodup := by
  unfold createFields at h
  obtain ⟨isGenerated, -, h⟩ := Outcome.of_bind_eq_ok h
  obtain ⟨own, -, h⟩ := Outcome.of_bind_eq_ok h
  obtain ⟨keys, -, h⟩ := Outcome.of_bind_eq_ok h
  cases h
  exact Entry.nodup_firstOfName _

/-- No name is declared twice for changed items. -/
theorem nodup_names_updateFields (h : updateFields c t = .ok es) : (es.map (·.name)).Nodup := by
  unfold updateFields at h
  obtain ⟨own, -, h⟩ := Outcome.of_bind_eq_ok h
  obtain ⟨keys, -, h⟩ := Outcome.of_bind_eq_ok h
  cases h
  exact Entry.nodup_firstOfName _

/-- **The inputs of new and of changed items declare the same names, and each of them once
(`IsWritten`)**: those of stored fields that an input can hold, the attributes of stored relations
to one item, the foreign keys that are implied, and the fields of the key. They are made just if the
types of these fields can be told. Filters declare the scalars and enums among the stored fields,
the same attributes and foreign keys, and the words that join filters (`IsFiltered`). -/
theorem inputs_declare (c : Catalog) (t : Table) (input : String) :
    ((∃ create, createFields c t = .ok create) ↔ IsTold t) ∧
    ((∃ update, updateFields c t = .ok update) ↔ IsTold t) ∧
    ((∃ filter, filterFields c t input = .ok filter) ↔
      ∀ f ∈ storedFields t, t.relation? f.name = none → ∃ shape, fieldShape t f = .ok shape) ∧
    (∀ es, createFields c t = .ok es ∨ updateFields c t = .ok es →
      (es.map (·.name)).Nodup ∧ ∀ name, name ∈ es.map (·.name) ↔ IsWritten c t name) ∧
    ∀ filter, filterFields c t input = .ok filter →
      ∀ name, name ∈ filter.map (·.name) ↔ IsFiltered c t name := by
  refine ⟨exists_createFields_iff, exists_updateFields_iff, exists_filterFields_iff, ?_, ?_⟩
  · rintro es (h | h)
    · exact ⟨nodup_names_createFields h, fun name => mem_names_createFields_iff h⟩
    · exact ⟨nodup_names_updateFields h, fun name => mem_names_updateFields_iff h⟩
  · exact fun filter h name => mem_names_filterFields_iff h

/-- Posts with a relation that is declared twice, and two fields of one name; and grids, which hold
rows of numbers. -/
def writtenTwice : Sdl.Document :=
  ⟨[tableOf "Author" [],
    .input { description := none, name := "Draft", directives := [],
             fields := [⟨none, "text", .named "String", none, []⟩] },
    tableOf "Post" [⟨none, "author", [], .named "Author",
        [⟨"connection", [("foreignKey", .string "writerId" false)]⟩,
          ⟨"connection", [("foreignKey", .string "editorId" false)]⟩]⟩,
      ⟨none, "note", [], .named "Draft", []⟩, ⟨none, "note", [], .named "String", []⟩],
    tableOf "Grid" [⟨none, "cells", [], .list (.list (.named "Int")), []⟩]]⟩

/-- What they are gathered to. -/
def gatheredTwice : Except Fault Catalog :=
  (gather { document := writtenTwice, schemaName := "schema.graphql", scope := none }).outcome

/-- The attribute of the second relation is not declared, nor is the second field, though it is a
text; and the inputs of grids are not made at all. -/
theorem writtenTwice_undeclared :
    (Outcome.Holds gatheredTwice fun c => ∃ t ∈ c.tables, t.name = "Post" ∧
      (∃ f ∈ storedFields t, ∃ r ∈ t.relations, r.field = f.name ∧ r.toMany = false ∧
        t.myKey r = "editorId") ∧
      (∃ f ∈ storedFields t, f.name = "note" ∧ (t.relation? f.name).isNone = true ∧
        f.type = .named "String" ∧ c.category "String" = .scalar) ∧
      Outcome.Holds (createFields c t) fun create =>
        Outcome.Holds (updateFields c t) fun update =>
          Outcome.Holds (filterFields c t (filterName t.name)) fun filter =>
            ∀ es ∈ [create, update, filter],
              "editorId" ∉ es.map (·.name) ∧ "note" ∉ es.map (·.name)) ∧
    Outcome.Holds gatheredTwice fun c => ∃ t ∈ c.tables, t.name = "Grid" ∧
      (∃ f ∈ storedFields t, f.name = "cells" ∧ (t.relation? f.name).isNone = true) ∧
      c.category "Int" = .scalar ∧
      ¬ Outcome.Holds (createFields c t) (fun _ => True) ∧
      ¬ Outcome.Holds (updateFields c t) (fun _ => True) ∧
      ¬ Outcome.Holds (filterFields c t (filterName t.name)) fun _ => True := by
  constructor
  · decide +kernel
  · decide +kernel

end Surface

end SchemaLoom
