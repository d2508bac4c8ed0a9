/-
Who may read the items of a table.

Callers read the items of a table by its operations, by its key queries, and by the relations
that lead to it.  The first two enforce the rules of the table and keep tenants apart
(`enforces_of_readsOwn`).  The relations enforce nothing: what they answer with says neither who
asks nor which table the items are from (`relation_enforces_iff`).

A reader enforces something if the template that does it is among the blocks of the templates
that are emitted.  To see that a relation has none, a remark is enough: a guard that is needed
and a check of tenants each begin with one (`exists_remark_guard`, `exists_remark_tenantChecks`),
and the templates of relations have no remark unless a name that they show spells one
(`Table.Spells`).
-/
import SchemaLoom.Compile
import SchemaLoom.Proofs.Catalog.Emission
import SchemaLoom.Proofs.Catalog.Gathering
import SchemaLoom.Proofs.Resolver.Containment

namespace SchemaLoom

open Artifact Resolver Surface

/-! ### Readers

A `Reader` is a resolver that answers with items of a table, given by its field and its two
templates.  Each kind of operation makes one.
-/

/-- A resolver that answers with stored items. -/
structure Reader where
  type : String
  field : String
  /-- The answer lists items. -/
  isList : Bool
  request : Template
  response : Template

/-- The reader that gets an item. -/
def getReader (t : Table) : Reader :=
  { type := "Query", field := getName t, isList := false
    request := getRequest t.primaryKey, response := getResponse t }

/-- The reader that lists items. -/
def listReader (t : Table) : Reader :=
  { type := "Query", field := listName t, isList := true
    request := listTemplate t, response := listResponse t }

/-- The reader that lists items by a key. -/
def queryReader (t : Table) (key : Key) : Reader :=
  { type := "Query", field := queryName key, isList := true
    request := keyQueryRequest key, response := queryResponse t }

/-- The reader that follows a relation of a table. -/
def relationReader (t : Table) (r : Relation) : Reader :=
  { type := t.name, field := r.field, isList := r.toMany
    request := relationRequest t r, response := relationResponse t r }

/-- The readers of a table that are its own. -/
inductive ReadsOwn (target : Table) : Reader → Prop where
  | get : ReadsOwn target (getReader target)
  | list : ReadsOwn target (listReader target)
  | query {key : Key} (hkey : key ∈ target.queryKeys) : ReadsOwn target (queryReader target key)

/-- The relation `r` of `t` has a name, can be resolved and leads to `target`. -/
def Table.LeadsTo (t : Table) (r : Relation) (target : Table) : Prop :=
  r ∈ t.relations ∧ t.isResolvable r = true ∧ r.isNamed = true ∧ r.target = target.name

/-! ### Enforcement -/

/-- The guard of the items that a reader answers with. -/
def Reader.guard (reader : Reader) (t : Table) : Template :=
  if reader.isList then listGuard (t.rulesFor .read) else itemGuard (t.rulesFor .read)

/-- The blocks that keep tenants apart where items are read. -/
def tenantChecks (tenancy : Tenancy) : List Template :=
  [tenantItemGuard tenancy, tenantList tenancy, tenantListGuard tenancy]

/-- The templates of the reader hold the guard of the rules of `t`, if they need one, and a check of
its tenants, if it has any. -/
structure Reader.Enforces (reader : Reader) (t : Table) : Prop where
  rules : Access.needsGuard (t.rulesFor .read) = true → reader.response.Holds (reader.guard t)
  tenants : ∀ tenancy, t.tenancy = some tenancy →
    ∃ check ∈ tenantChecks tenancy, reader.request.Holds check ∨ reader.response.Holds check

/-- **The readers of a table that are its own enforce its rules and keep its tenants apart**
(`Reader.Enforces`). -/
theorem enforces_of_readsOwn {target : Table} {reader : Reader}
    (h : ReadsOwn target reader) : reader.Enforces target := by
  cases h with
  | get =>
    constructor
    · intro _
      exact Template.holds_append (forTenants target tenantItemGuard) _ _
    · intro tenancy htenancy
      refine ⟨tenantItemGuard tenancy, by simp [tenantChecks], Or.inr ?_⟩
      have hholds := Template.holds_append [] (tenantItemGuard tenancy)
        (itemGuard (target.rulesFor .read) ++ resultResponse)
      simpa [getReader, getResponse, forTenants, htenancy] using hholds
  | list =>
    constructor
    · intro _
      exact Template.holds_append [] (listGuard (target.rulesFor .read)) resultResponse
    · intro tenancy htenancy
      refine ⟨tenantList tenancy, by simp [tenantChecks], Or.inl ?_⟩
      have hholds := Template.holds_append [] (tenantList tenancy) listRequest
      simpa [listReader, listTemplate, forTenants, htenancy] using hholds
  | query hkey =>
    constructor
    · intro _
      have hholds := Template.holds_append (forTenants target tenantListGuard)
        (listGuard (target.rulesFor .read)) resultResponse
      rw [List.append_assoc] at hholds
      exact hholds
    · intro tenancy htenancy
      refine ⟨tenantListGuard tenancy, by simp [tenantChecks], Or.inr ?_⟩
      have hholds := Template.holds_append [] (tenantListGuard tenancy) (listResponse target)
      simpa [queryReader, queryResponse, forTenants, htenancy] using hholds

/-! ### Relations

The templates of relations are made of fixed lines and names.  None of the lines is a remark that
opens a guard, and so no guard is there if the rules ask for one.
-/

/-- No name that the relation `r` of `t` shows in templates holds the mark that ends remarks. -/
def Table.Spells (t : Table) (r : Relation) : Prop :=
  '*' ∉ (t.yourKey r).toList ∧ '*' ∉ (t.myKey r).toList ∧ ∀ name ∈ r.name, '*' ∉ name.toList

theorem unmarked_relationRequest {t : Table} {r : Relation} (h : t.Spells r) :
    (relationRequest t r).Unmarked := by
  obtain ⟨hyours, hmine, hname⟩ := h
  unfold relationRequest
  split
  · exact unmarked_relatedItemsRequest hyours hmine hname
  · exact unmarked_relatedItemRequest hyours hmine _

theorem unmarked_relationResponse (t : Table) (r : Relation) :
    (relationResponse t r).Unmarked := by
  unfold relationResponse
  split
  · exact unmarked_resultResponse
  · exact unmarked_relatedItemResponse _

/-- A guard that is needed begins with a remark. -/
theorem exists_remark_guard {t : Table} (h : Access.needsGuard (t.rulesFor .read) = true)
    (reader : Reader) : ∃ words, remark words ∈ reader.guard t := by
  refine ⟨"[Start] Determine request authentication mode", ?_⟩
  unfold Reader.guard
  split <;> simp [listGuard, itemGuard, memberBlock, h, authMode]

/-- A check of tenants begins with a remark. -/
theorem exists_remark_tenantChecks {tenancy : Tenancy} {check : Template}
    (h : check ∈ tenantChecks tenancy) : ∃ words, remark words ∈ check := by
  refine ⟨"[Start] Resolve tenant", ?_⟩
  simp only [tenantChecks, List.mem_cons, List.not_mem_nil, or_false] at h
  rcases h with rfl | rfl | rfl
  · simp [tenantItemGuard, tenantLines]
  · simp [tenantList, tenantLines]
  · simp [tenantListGuard, tenantLines]

/-- **A relation to a table enforces no rules.** -/
theorem needsGuard_of_relation_enforces {t target : Table} {r : Relation}
    (h : (relationReader t r).Enforces target) :
    Access.needsGuard (target.rulesFor .read) = false := by
  rw [← Bool.not_eq_true]
  intro hneeded
  obtain ⟨words, hremark⟩ := exists_remark_guard hneeded (relationReader t r)
  exact (unmarked_relationResponse t r).not_holds hremark (h.rules hneeded)

/-- **A relation to a table enforces nothing: it does what it should only where there is nothing to
enforce.** A check begins with a remark, which would have to stand in a name that the template shows
(`Table.Spells`). -/
theorem relation_enforces_iff {t : Table} {r : Relation} (hspells : t.Spells r) (target : Table) :
    (relationReader t r).Enforces target ↔
      Access.needsGuard (target.rulesFor .read) = false ∧ target.tenancy = none := by
  have hrequest := unmarked_relationRequest hspells
  have hresponse := unmarked_relationResponse t r
  constructor
  · rintro ⟨hrules, htenants⟩
    constructor
    · exact needsGuard_of_relation_enforces ⟨hrules, htenants⟩
    · cases htenancy : target.tenancy with
      | none => rfl
      | some tenancy =>
        obtain ⟨check, hcheck, hholds⟩ := htenants tenancy htenancy
        obtain ⟨words, hremark⟩ := exists_remark_tenantChecks hcheck
        rcases hholds with hholds | hholds
        · exact absurd hholds (hrequest.not_holds hremark)
        · exact absurd hholds (hresponse.not_holds hremark)
  · rintro ⟨hfree, hnone⟩
    constructor
    · intro hneeded
      rw [hfree] at hneeded
      cases hneeded
    · intro tenancy htenancy
      rw [hnone] at htenancy
      cases htenancy

/-! ### Emission

Readers are found among the fragments by their locations, for tables and for relations alike.
-/

/-- The templates of the reader are among `fs`. -/
def Reader.IsEmitted (reader : Reader) (fs : List Fragment) : Prop :=
  ∃ replaceable, ∀ f ∈ templatePair (reader.type ++ "." ++ reader.field) reader.request
    reader.response replaceable, f ∈ fs

namespace Catalog

variable {c : Catalog} {fs : List Fragment}

theorem isEmitted_of_readsOwn (h : c.emit.outcome = .ok fs) {target : Table}
    (htable : target ∈ c.tables) {reader : Reader} (hreads : ReadsOwn target reader) :
    reader.IsEmitted fs := by
  have hoperations : ∀ f ∈ templatePair ("Query" ++ "." ++ getName target)
      (getRequest target.primaryKey) (getResponse target)
      ++ templatePair ("Query" ++ "." ++ listName target) (listTemplate target)
        (listResponse target), f ∈ fs := by
    have hpart : TablePart.operations ∈ target.parts := by simp [Table.parts]
    obtain ⟨gs, hfragments, hemitted⟩ := exists_part_of_emit h htable hpart
    simp only [partFragments, operationFragments, Report.outcome_bind, Report.outcome_lift]
      at hfragments
    obtain ⟨schema, -, hfragments⟩ := Outcome.of_bind_eq_ok hfragments
    obtain ⟨templates, htemplates, hfragments⟩ := Outcome.of_bind_eq_ok hfragments
    cases hfragments
    unfold operationTemplates at htemplates
    obtain ⟨isGenerated, -, htemplates⟩ := Outcome.of_bind_eq_ok htemplates
    cases htemplates
    intro f hf
    refine hemitted f (List.mem_append_right _ (List.mem_cons_of_mem _ ?_))
    exact List.mem_append_left _ hf
  cases hreads with
  | get => exact ⟨true, fun f hf => hoperations f (List.mem_append_left _ hf)⟩
  | list => exact ⟨true, fun f hf => hoperations f (List.mem_append_right _ hf)⟩
  | @query key hkey =>
    have hpart : TablePart.query key ∈ target.parts := by simp [Table.parts, hkey]
    obtain ⟨gs, hfragments, hemitted⟩ := exists_part_of_emit h htable hpart
    simp only [partFragments, Report.outcome_lift, queryFragments] at hfragments
    obtain ⟨schema, -, hfragments⟩ := Outcome.of_bind_eq_ok hfragments
    cases hfragments
    exact ⟨true, fun f hf => hemitted f (List.mem_append_right _ hf)⟩

theorem isEmitted_of_relation (h : c.emit.outcome = .ok fs) {t : Table} (htable : t ∈ c.tables)
    {r : Relation} (hrelation : r ∈ t.relations) (hresolvable : t.isResolvable r = true) :
    (relationReader t r).IsEmitted fs := by
  have hpart : TablePart.relation r ∈ t.parts := by simp [Table.parts, hrelation, hresolvable]
  obtain ⟨gs, hfragments, hemitted⟩ := exists_part_of_emit h htable hpart
  simp only [partFragments, Report.outcome_pure, Except.ok.injEq] at hfragments
  subst hfragments
  refine ⟨!r.isCustom, fun f hf => hemitted f ?_⟩
  exact List.mem_cons_of_mem _ (List.mem_append_left _ hf)

end Catalog

/-- **Whoever reads the items of a table by its own operations and key queries is held to its rules
and its tenancy; whoever reads them through a relation is not.**  A relation enforces no rules, and
unless its names happen to spell a check, it keeps no tenants apart: all that is read is guarded
exactly if the table has nothing to enforce, or no named relation leads to it. -/
theorem readers_enforce_iff {schemaName : String} {scope : Sdl.Scope} {document : Sdl.Document}
    {compilation : Compilation}
    (hcompile : (compileDocument schemaName scope document).outcome = .ok compilation)
    {target : Table} (htable : target ∈ compilation.catalog.tables) :
    (∀ reader, ReadsOwn target reader →
      reader.IsEmitted compilation.fragments ∧ reader.Enforces target) ∧
    ∀ t ∈ compilation.catalog.tables, ∀ r, t.LeadsTo r target →
      (relationReader t r).IsEmitted compilation.fragments ∧
      ((relationReader t r).Enforces target → Access.needsGuard (target.rulesFor .read) = false) ∧
      (t.Spells r → ((relationReader t r).Enforces target ↔
        Access.needsGuard (target.rulesFor .read) = false ∧ target.tenancy = none)) := by
  obtain ⟨-, hemit⟩ := of_compileDocument hcompile
  constructor
  · intro reader hreads
    exact ⟨Catalog.isEmitted_of_readsOwn hemit htable hreads, enforces_of_readsOwn hreads⟩
  · intro t ht r hleads
    refine ⟨Catalog.isEmitted_of_relation hemit ht hleads.1 hleads.2.1,
      needsGuard_of_relation_enforces, ?_⟩
    intro hspells
    exact relation_enforces_iff hspells target

/-- A schema in which the items of a guarded table can be read through a relation. -/
def librarySchema : String :=
  "type Author @model \x7b id: ID! posts: [Post] @connection(name: \"P\") \x7d
  type Post @model @auth(provider: COGNITO_USER_POOLS, strategy: \x7btype: OWNER\x7d) @multiTenancy
    \x7b id: ID! author: Author @connection(name: \"P\") \x7d"

theorem library_reads_unguarded : ∃ document compilation,
    Sdl.Document.parse librarySchema = .ok document ∧
      (compileDocument "schema.graphql" none document).outcome = .ok compilation ∧
      ∃ target ∈ compilation.catalog.tables, ∃ t ∈ compilation.catalog.tables, ∃ r ∈ t.relations,
        (relationReader t r).IsEmitted compilation.fragments ∧
          ¬ (relationReader t r).Enforces target := by
  have hchecks : Outcome.Holds (Sdl.Document.parse librarySchema) fun document =>
      Outcome.Holds (compileDocument "schema.graphql" none document).outcome fun compilation =>
        ∃ target ∈ compilation.catalog.tables,
          Access.needsGuard (target.rulesFor .read) = true ∧
          ∃ t ∈ compilation.catalog.tables, ∃ r ∈ t.relations,
            t.isResolvable r = true ∧ r.isNamed = true ∧ r.target = target.name := by
    decide +kernel
  obtain ⟨document, hparse, compilation, hcompile, target, htable, hneeded, t, ht, r, hrelation,
    hleads⟩ := hchecks
  obtain ⟨hemitted, hrules, -⟩ :=
    (readers_enforce_iff hcompile htable).2 t ht r ⟨hrelation, hleads⟩
  refine ⟨document, compilation, hparse, hcompile, target, htable, t, ht, r, hrelation, hemitted,
    ?_⟩
  intro henforces
  rw [hrules henforces] at hneeded
  cases hneeded

end SchemaLoom
