/-
Where callers can write the tenant of an item.

The attribute that holds the tenant of an item is managed: a field of its name is left out of the
generated inputs.  But an input has entries for more than fields.  A relation to one item is
given by the attribute behind it, and foreign keys that relations of other tables imply are given
as well, and neither is looked at for the tenant.  So the attribute can be written just if a
relation keeps its key there (`KeepsKey`).

That is an equivalence for a name which no stored field has, so the tenant is treated like any
such name: under which names fields are given is `Names`, for the input of a new and of a changed
item alike, and then the entries of an input are gone through.
-/
import SchemaLoom.Proofs.Catalog.ImpliedKey
import SchemaLoom.Proofs.Surface.Entries

namespace SchemaLoom.Surface

open Sdl (Document Scope)

variable {c : Catalog} {t : Table} {es : List Entry} {name : String}

/-! ### Names of entries -/

/-- Among entries of which the first of each name is left, no name is lost. -/
theorem mem_names_firstOfName :
    name ∈ (Entry.firstOfName es).map (·.name) ↔ name ∈ es.map (·.name) := by
  induction es with
  | nil => exact Iff.rfl
  | cons e es ih =>
    simp only [Entry.firstOfName, List.map_cons, List.mem_cons, ← ih]
    by_cases hfirst : name = e.name
    · simp [hfirst]
    · have hkept : name ∈ ((Entry.firstOfName es).filter fun other => other.name ≠ e.name).map
          (·.name) ↔ name ∈ (Entry.firstOfName es).map (·.name) := by
        simp only [List.mem_map, List.mem_filter]
        refine exists_congr fun other => ⟨fun h => ⟨h.1.1, h.2⟩, fun h => ⟨⟨h.1, ?_⟩, h.2⟩⟩
        simpa [h.2] using hfirst
      rw [hkept]

/-- What `make` makes of fields has the names under which they are given; fields that are no
relations may be left out. -/
structure Names (t : Table) (make : Sdl.Field → Except Fault (Option Entry)) : Prop where
  relation : ∀ f r x, t.relation? f.name = some r → make f = .ok x →
    x.map (·.name) = if r.toMany then none else some (t.myKey r)
  field : ∀ f e, t.relation? f.name = none → make f = .ok (some e) → e.name = f.name

theorem names_createEntry (isGenerated : Bool) : Names t (createEntry c t isGenerated) where
  relation f r x hrelation h := by
    unfold createEntry at h
    obtain ⟨shape, -, h⟩ := Outcome.of_bind_eq_ok h
    rw [hrelation] at h
    cases h
    cases r.toMany <;> rfl
  field f e hnone h := by
    unfold createEntry at h
    obtain ⟨shape, -, h⟩ := Outcome.of_bind_eq_ok h
    rw [hnone] at h
    obtain ⟨given, -, rfl⟩ := Option.map_eq_some_iff.1 (Except.ok.inj h)
    rfl

theorem names_updateEntry : Names t (updateEntry c t) where
  relation f r x hrelation h := by
    unfold updateEntry at h
    obtain ⟨shape, -, h⟩ := Outcome.of_bind_eq_ok h
    rw [hrelation] at h
    cases h
    cases r.toMany <;> rfl
  field f e hnone h := by
    unfold updateEntry at h
    obtain ⟨shape, -, h⟩ := Outcome.of_bind_eq_ok h
    rw [hnone] at h
    have hentry := Except.ok.inj h
    split at hentry
    · cases hentry
      rfl
    · obtain ⟨given, -, rfl⟩ := Option.map_eq_some_iff.1 hentry
      rfl

/-- A relation of a stored field to one item is given by the attribute `name`. -/
def GivesRelation (t : Table) (name : String) : Prop :=
  ∃ f ∈ storedFields t, ∃ r, t.relation? f.name = some r ∧ r.toMany = false ∧ t.myKey r = name

/-- The attribute of a relation of a stored field to one item is given. -/
theorem mem_names_own_of_givesRelation {make : Sdl.Field → Except Fault (Option Entry)}
    (hnames : Names t make) {own : List (Option Entry)}
    (hown : (storedFields t).mapM make = .ok own)
    (h : GivesRelation t name) : name ∈ (own.filterMap id).map (·.name) := by
  obtain ⟨f, hf, r, hrelation, hone, rfl⟩ := h
  obtain ⟨x, hx, hmade⟩ := Outcome.exists_result_of_mem hown hf
  have hkey := hnames.relation f r x hrelation hmade
  rw [hone, if_neg Bool.false_ne_true, Option.map_eq_some_iff] at hkey
  obtain ⟨e, rfl, hname⟩ := hkey
  exact List.mem_map.2 ⟨e, List.mem_filterMap.2 ⟨some e, hx, rfl⟩, hname⟩

/-- A name that no stored field has is given just for a relation. -/
theorem mem_names_own {make : Sdl.Field → Except Fault (Option Entry)} (hnames : Names t make)
    {own : List (Option Entry)} (hown : (storedFields t).mapM make = .ok own)
    (hother : ∀ f ∈ storedFields t, f.name ≠ name) :
    name ∈ (own.filterMap id).map (·.name) ↔ GivesRelation t name := by
  refine ⟨fun h => ?_, mem_names_own_of_givesRelation hnames hown⟩
  simp only [List.mem_map, List.mem_filterMap, id_eq, exists_eq_right] at h
  obtain ⟨e, he, rfl⟩ := h
  obtain ⟨f, hf, hmade⟩ := Outcome.exists_of_mem_mapM hown he
  cases hrelation : t.relation? f.name with
  | none => exact absurd (hnames.field f e hrelation hmade).symm (hother f hf)
  | some r =>
    have hkey := hnames.relation f r _ hrelation hmade
    cases hmany : r.toMany with
    | true => simp [hmany] at hkey
    | false => exact ⟨f, hf, r, hrelation, hmany, by simpa [hmany] using hkey.symm⟩

/-! ### Inputs -/

/-- A name that is none of the fields is given for a relation, implied, or that of a key entry. -/
theorem mem_names_input {make : Sdl.Field → Except Fault (Option Entry)} (hnames : Names t make)
    {own : List (Option Entry)} (hown : (storedFields t).mapM make = .ok own)
    (hother : ∀ f ∈ storedFields t, f.name ≠ name) {keys : List Entry}
    (hkeys : name ∉ keys.map (·.name)) :
    name ∈ (Entry.firstOfName (own.filterMap id
        ++ t.impliedForeignKeys.map (fun key => Entry.plain key "String") ++ keys)).map (·.name) ↔
      GivesRelation t name ∨ name ∈ t.impliedForeignKeys := by
  have himplied : (t.impliedForeignKeys.map fun key => Entry.plain key "String").map (·.name)
      = t.impliedForeignKeys := by
    rw [List.map_map]
    exact List.map_id _
  rw [mem_names_firstOfName, List.map_append, List.map_append, List.mem_append, List.mem_append,
    mem_names_own hnames hown hother, himplied]
  exact ⟨fun h => h.resolve_right hkeys, Or.inl⟩

/-- A name that is none of the fields can be set in a new item just if it is given for a relation or
implied. -/
theorem mem_names_createFields (h : createFields c t = .ok es)
    (hother : ∀ f ∈ storedFields t, f.name ≠ name) (hkey : name ∉ t.primaryKey.fields) :
    name ∈ es.map (·.name) ↔ GivesRelation t name ∨ name ∈ t.impliedForeignKeys := by
  unfold createFields at h
  obtain ⟨isGenerated, -, h⟩ := Outcome.of_bind_eq_ok h
  obtain ⟨own, hown, h⟩ := Outcome.of_bind_eq_ok h
  obtain ⟨keys, hkeys, h⟩ := Outcome.of_bind_eq_ok h
  cases h
  refine mem_names_input (names_createEntry isGenerated) hown hother fun hname => ?_
  obtain ⟨e, he, rfl⟩ := List.mem_map.1 hname
  obtain ⟨field, hfield, hentry⟩ := Outcome.exists_of_mem_mapM hkeys he
  obtain ⟨base, -, hentry⟩ := Outcome.of_bind_eq_ok hentry
  have hsame : e.name = field := by
    cases hentry
    split <;> rfl
  exact hkey (hsame ▸ hfield)

/-- A name that is none of the fields can be changed just if it is given for a relation or
implied. -/
theorem mem_names_updateFields (h : updateFields c t = .ok es)
    (hother : ∀ f ∈ storedFields t, f.name ≠ name) (hkey : name ∉ t.primaryKey.fields) :
    name ∈ es.map (·.name) ↔ GivesRelation t name ∨ name ∈ t.impliedForeignKeys := by
  unfold updateFields at h
  obtain ⟨own, hown, h⟩ := Outcome.of_bind_eq_ok h
  obtain ⟨keys, hkeys, h⟩ := Outcome.of_bind_eq_ok h
  cases h
  refine mem_names_input names_updateEntry hown hother fun hname => ?_
  obtain ⟨e, he, rfl⟩ := List.mem_map.1 hname
  exact hkey (isKeyEntry_of_keyEntriesOf hkeys he).1

/-! ### The tenant of an item -/

theorem name_ne_of_mem_storedFields {tenancy : Tenancy} (htenancy : t.tenancy = some tenancy) :
    ∀ f ∈ storedFields t, f.name ≠ tenancy.field := by
  intro f hf
  have hstored := (List.mem_filter.1 hf).2
  simp only [htenancy, Option.all_some, Bool.and_eq_true, decide_eq_true_eq] at hstored
  exact hstored.2

/-- A relation keeps its key in the attribute `name` of the items of `t`. -/
inductive KeepsKey (c : Catalog) (t : Table) (name : String) : Prop where
  /-- A relation of the table to one item is kept there. -/
  | one {f : Sdl.Field} {r : Relation} (hfield : f ∈ storedFields t)
    (hrelation : t.relation? f.name = some r) (hone : r.toMany = false)
    (hkey : t.myKey r = name)
  /-- A relation of a table to many items of this one, without another end, is kept there. -/
  | many {owner : Table} {r : Relation} (howner : owner ∈ c.tables)
      (hrelation : r ∈ owner.relations)
    (hmany : r.toMany = true) (htarget : r.target = t.name)
    (hend : t.otherEnd? (owner.demand r) = none) (hkey : owner.defaultForeignKey r = name)

theorem keepsKey_iff {before : Catalog} (hnodup : before.tableNames.Nodup)
    (hnone : before.ImpliesNothing) (ht : t ∈ before.classify.1.tables) :
    KeepsKey before.classify.1 t name ↔ GivesRelation t name ∨ name ∈ t.impliedForeignKeys := by
  rw [Catalog.mem_impliedForeignKeys_iff hnodup hnone ht]
  constructor
  · rintro (⟨hfield, hrelation, hone, hkey⟩ | ⟨howner, hrelation, hmany, htarget, hend, hkey⟩)
    · exact Or.inl ⟨_, hfield, _, hrelation, hone, hkey⟩
    · exact Or.inr ⟨_, howner, _, hrelation, hmany, htarget, hend, hkey⟩
  · rintro (⟨f, hfield, r, hrelation, hone, hkey⟩ |
      ⟨owner, howner, r, hrelation, hmany, htarget, hend, hkey⟩)
    · exact .one hfield hrelation hone hkey
    · exact .many howner hrelation hmany htarget hend hkey

/-- The inputs of new and of changed items are declared with their entries. -/
theorem inputs_of_operationDeclarations {ds : List Declaration}
    (h : operationDeclarations c t = .ok ds) : ∃ create update,
      createFields c t = .ok create ∧ updateFields c t = .ok update ∧
        .input (inputName t.name .create) create ∈ ds ∧
        .input (inputName t.name .update) update ∈ ds := by
  obtain ⟨key, condition, filter, create, update, -, -, -, hcreate, hupdate, rfl⟩ :=
    of_operationDeclarations h
  exact ⟨create, update, hcreate, hupdate, by simp, by simp⟩

/-- **Callers can write the tenant of an item just if a relation keeps its key in the same attribute
(`KeepsKey`).** -/
theorem tenant_settable_iff {document : Document} {schemaName : String} {scope : Scope}
    (hgather : (Catalog.gather { document, schemaName, scope }).outcome = .ok c)
    (ht : t ∈ c.tables) {tenancy : Tenancy} (htenancy : t.tenancy = some tenancy)
    (hkey : tenancy.field ∉ t.primaryKey.fields) {ds : List Declaration}
    (hdeclared : operationDeclarations c t = .ok ds) : ∃ create update,
      .input (inputName t.name .create) create ∈ ds ∧
        .input (inputName t.name .update) update ∈ ds ∧
        (tenancy.field ∈ create.map (·.name) ↔ KeepsKey c t tenancy.field) ∧
        (tenancy.field ∈ update.map (·.name) ↔ KeepsKey c t tenancy.field) := by
  rw [Catalog.outcome_gather] at hgather
  obtain ⟨before, hbefore, rfl⟩ := Outcome.of_map_eq_ok hgather
  obtain ⟨hrooted, -⟩ := Catalog.rooted_of_collected hbefore
  have hkeeps : KeepsKey before.classify.1 t tenancy.field ↔ _ :=
    keepsKey_iff hrooted.tableNames (Catalog.impliesNothing_of_collected hbefore) ht
  have hother := name_ne_of_mem_storedFields htenancy
  obtain ⟨create, update, hcreate, hupdate, hnew, hchanged⟩ :=
    inputs_of_operationDeclarations hdeclared
  exact ⟨create, update, hnew, hchanged,
    (mem_names_createFields hcreate hother hkey).trans hkeeps.symm,
    (mem_names_updateFields hupdate hother hkey).trans hkeeps.symm⟩

/-- Documents of tenants, whose authors are found by the tenant. -/
def tenantDocs : String :=
  "type Author @model \x7b docs: [Doc] @connection(name: \"D\", foreignKey: \"tenantId\") \x7d
  type Doc @model @multiTenancy \x7b id: ID! \x7d"

/-- The relation of authors to documents lets callers write the tenants of documents. -/
theorem tenantDocs_settable : ∃ document c t ds create update,
    Document.parse tenantDocs = .ok document ∧
      (Catalog.gather { document, schemaName := "schema.graphql", scope := none }).outcome = .ok c ∧
      t ∈ c.tables ∧ t.name = "Doc" ∧ t.tenancy = some {} ∧ t.primaryKey.fields = ["id"] ∧
      operationDeclarations c t = .ok ds ∧
      .input "CreateDocInput" create ∈ ds ∧ .input "UpdateDocInput" update ∈ ds ∧
      "tenantId" ∈ create.map (·.name) ∧ "tenantId" ∈ update.map (·.name) := by
  have hfacts : Outcome.Holds (Document.parse tenantDocs) fun document =>
      Outcome.Holds
        (Catalog.gather { document, schemaName := "schema.graphql", scope := none }).outcome
        fun c => ∃ t ∈ c.tables, t.name = "Doc" ∧ t.tenancy = some {} ∧
          t.primaryKey.fields = ["id"] ∧
          (Outcome.Holds (operationDeclarations c t) fun _ => True) ∧
          ∃ owner ∈ c.tables, ∃ r ∈ owner.relations, r.toMany = true ∧ r.target = t.name ∧
            (t.otherEnd? (owner.demand r)).isNone = true ∧
            owner.defaultForeignKey r = "tenantId" := by
    decide +kernel
  obtain ⟨document, hparse, c, hgather, t, ht, hname, htenancy, hfields, ⟨ds, hdeclared, -⟩, owner,
    howner, r, hrelation, hmany, htarget, hend, hkey⟩ := hfacts
  have hkeeps : KeepsKey c t "tenantId" :=
    .many howner hrelation hmany htarget (Option.isNone_iff_eq_none.1 hend) hkey
  obtain ⟨create, update, hnew, hchanged, hcreate, hupdate⟩ :=
    tenant_settable_iff hgather ht htenancy (by simp [hfields]) hdeclared
  rw [hname] at hnew hchanged
  exact ⟨document, c, t, ds, create, update, hparse, hgather, ht, hname, htenancy, hfields,
    hdeclared, hnew, hchanged, hcreate.2 hkeeps, hupdate.2 hkeeps⟩

end SchemaLoom.Surface
