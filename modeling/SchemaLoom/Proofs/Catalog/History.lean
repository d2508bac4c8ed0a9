/-
Histories of a catalog.

The directives of a document are not the only ones to fill a catalog: tables may be registered
and added to by hand, before, between and after its phases.  What is asked of a catalog (`Call`)
may be refused; then the catalog stays what it was, and more may be asked.

Whatever is asked, in whatever order, no two tables have one name and no two keys of a table do
(`IsKeyed`).  That is the invariant: `IsKeyed.perform` is its step, with one case for each kind
of call, and `IsKeyed.after` its induction over a history.  On it rests what the indexes of a
table are once its relations are classified: the keys come first among the reasons for an index,
so that none of them has to yield.

Two relations of one name may still call for one index, and then the first decides what it is
like.  `IsIndexedBy` promises no more there than that an index of the name exists.
-/
import SchemaLoom.Proofs.Catalog.IndexSource

namespace SchemaLoom

/-! ### What may be asked

A call is either one thing that is done by hand or a whole phase.  A phase that stops at a fault
keeps what it came to, as the program does, so a history goes on from a half-filled catalog too.
-/

/-- What may be added to a table. -/
inductive Addition where
  | key (key : Key)
  | relation (r : Relation)
  | rule (rule : Access.Rule)
  | unique (field : String)
  | tenancy (tenancy : Tenancy)
  | impliedIndex (i : Index)
  | impliedForeignKey (field : String)
  deriving Repr

/-- A table with something added, if it can be. -/
def Table.take (t : Table) : Addition → Except Fault Table
  | .key key => t.addKey key
  | .relation r => .ok (t.addRelation r)
  | .rule rule => .ok (t.addRule rule)
  | .unique field => .ok (t.addUnique field)
  | .tenancy tenancy => .ok { t with tenancy := some tenancy }
  | .impliedIndex i => .ok (t.addImpliedIndex i)
  | .impliedForeignKey field => .ok (t.addImpliedForeignKey field)

/-- What may be asked of a catalog. -/
inductive Call where
  /-- A type is registered as a table of some kind of storage. -/
  | register (definition : Sdl.ObjectType) (provider : String)
  /-- Something is added to the table of a name. -/
  | add (table : String) (addition : Addition)
  /-- The directives of the document act. -/
  | dispatch (phase : Phase)
  /-- Relations are classified. -/
  | classify
  deriving Repr

namespace Catalog

/-- What comes of one call.  Nothing is added to a table that there is not, and a phase that stops
at a fault keeps what it came to. -/
def perform (c : Catalog) : Call → Except Fault Catalog
  | .register definition provider => c.register { definition, provider }
  | .add table addition =>
    match c.table? table with
    | none => .ok c
    | some t => c.putTable <$> t.take addition
  | .dispatch phase => .ok (c.dispatch phase).catalog
  | .classify => .ok c.classify.1

/-- A catalog after calls, each of which may be refused. -/
def after (c : Catalog) (calls : List Call) : Catalog :=
  calls.foldl (fun c call => (c.perform call).toOption.getD c) c

/-! ### Names

Tables are only ever added with fresh names, and a key or an index is taken up under a fresh one.
This holds whether a call succeeds or not.
-/

/-- No two tables have one name, and no two keys of a table do. -/
structure IsKeyed (c : Catalog) : Prop where
  tableNames : c.tableNames.Nodup
  keyNames : ∀ t ∈ c.tables, (t.keys.map (·.name)).Nodup

end Catalog

namespace Table

/-- The table `t'` has the keys of `t`, and perhaps one more, of a name that none of them has. -/
def ExtendsKeys (t t' : Table) : Prop :=
  t'.keys = t.keys ∨ ∃ key, t'.keys = t.keys ++ [key] ∧ ∀ k ∈ t.keys, k.name ≠ key.name

theorem ExtendsKeys.nodup {t t' : Table} (h : t.ExtendsKeys t')
    (hnodup : (t.keys.map (·.name)).Nodup) : (t'.keys.map (·.name)).Nodup := by
  rcases h with hsame | ⟨key, hmore, hnew⟩
  · rw [hsame]
    exact hnodup
  · rw [hmore, List.map_append, List.map_singleton, ← List.concat_eq_append]
    refine hnodup.concat fun hthere => ?_
    obtain ⟨k, hk, hsame⟩ := List.mem_map.1 hthere
    exact hnew k hk hsame

theorem extendsKeys_addUnique (t : Table) (field : String) : t.ExtendsKeys (t.addUnique field) := by
  unfold addUnique
  split <;> exact Or.inl rfl

/-- What may be added to a table by hand. -/
theorem extendsKeys_take {t t' : Table} {addition : Addition} (h : t.take addition = .ok t') :
    t.ExtendsKeys t' := by
  cases addition with
  | key key =>
    simp only [take, addKey] at h
    split at h
    · cases h
    next hfree =>
      cases h
      exact Or.inr ⟨key, rfl, by simpa using hfree⟩
  | unique field =>
    cases h
    exact t.extendsKeys_addUnique field
  | impliedIndex i =>
    cases h
    exact Or.inl (t.kin_addImpliedIndex i).keys
  | impliedForeignKey field =>
    cases h
    exact Or.inl (t.kin_addImpliedForeignKey field).keys
  | _ =>
    cases h
    exact Or.inl rfl

/-- What an occurrence of a directive may add to a table. -/
theorem Gains.extendsKeys {site : Sdl.Site} {t t' : Table} (h : t.Gains site t') :
    t.ExtendsKeys t' := by
  cases h with
  | key hkey => exact Or.inr ⟨_, rfl, hkey⟩
  | unique _ => exact t.extendsKeys_addUnique _
  | _ => exact Or.inl rfl

end Table

namespace Catalog

variable {c c' : Catalog}

theorem isKeyed_empty (document : Sdl.Document) (schemaName : String) (scope : Sdl.Scope) :
    IsKeyed { document, schemaName, scope } where
  tableNames := List.nodup_nil
  keyNames t ht := by cases ht

theorem IsKeyed.register (h : c.IsKeyed) {t : Table} (hnew : c.table? t.name = none)
    (hkeys : t.keys = []) : IsKeyed { c with tables := c.tables ++ [t] } where
  tableNames := nodup_tableNames_register h.tableNames hnew
  keyNames u hu := by
    rcases List.mem_append.1 hu with hold | hadded
    · exact h.keyNames u hold
    · rw [List.mem_singleton.1 hadded, hkeys]
      exact List.nodup_nil

theorem IsKeyed.put (h : c.IsKeyed) {t t' : Table} (ht : t ∈ c.tables) (hkeys : t.ExtendsKeys t') :
    (c.putTable t').IsKeyed where
  tableNames := (tableNames_putTable c t').symm ▸ h.tableNames
  keyNames u hu := by
    rcases mem_putTable hu with rfl | hold
    · exact hkeys.nodup (h.keyNames t ht)
    · exact h.keyNames u hold

theorem IsKeyed.acts (h : c.IsKeyed) {o : Occurrence} (hacts : Acts o c c') : c'.IsKeyed := by
  cases hacts with
  | idle => exact h
  | register hsite hnew => exact h.register hnew rfl
  | gain htable hgains => exact h.put (mem_of_table? htable).1 hgains.extendsKeys
  | function hsite => exact ⟨h.tableNames, h.keyNames⟩
  | foreign hsite hname hshape => exact ⟨h.tableNames, h.keyNames⟩
  | rule hsite => exact ⟨h.tableNames, h.keyNames⟩

theorem IsKeyed.dispatch (h : c.IsKeyed) (phase : Phase) : (c.dispatch phase).catalog.IsKeyed := by
  refine run_keeps IsKeyed (fun o _ before next hbefore hstep => ?_) h
  rcases acts_of_step hstep with rfl | ⟨-, hacts, -⟩
  · exact hbefore
  · exact hbefore.acts hacts

theorem IsKeyed.classify (h : c.IsKeyed) : c.classify.1.IsKeyed where
  tableNames := (kin_classify c).tableNames ▸ h.tableNames
  keyNames t ht := by
    obtain ⟨before, hbefore, hkin⟩ := (kin_classify c).tables t ht
    rw [hkin.keys]
    exact h.keyNames before hbefore

/-- **No call makes two tables of one name, or two keys of one name in a table**: every `Call` keeps
a catalog `IsKeyed`. -/
theorem IsKeyed.perform (h : c.IsKeyed) {call : Call} (hcall : c.perform call = .ok c') :
    c'.IsKeyed := by
  cases call with
  | register definition provider =>
    simp only [Catalog.perform, Catalog.register] at hcall
    split at hcall
    · cases hcall
    next hfree =>
      cases hcall
      exact h.register (by simpa using hfree) rfl
  | add table addition =>
    simp only [Catalog.perform] at hcall
    split at hcall
    · cases hcall
      exact h
    next t htable =>
      cases htake : t.take addition with
      | error fault =>
        rw [htake] at hcall
        cases hcall
      | ok t' =>
        rw [htake] at hcall
        cases hcall
        exact h.put (mem_of_table? htable).1 (Table.extendsKeys_take htake)
  | dispatch phase =>
    cases hcall
    exact h.dispatch phase
  | classify =>
    cases hcall
    exact h.classify

theorem IsKeyed.after (h : c.IsKeyed) (calls : List Call) : (c.after calls).IsKeyed := by
  induction calls generalizing c with
  | nil => exact h
  | cons call calls ih =>
    refine ih (c := (c.perform call).toOption.getD c) ?_
    cases hcall : c.perform call with
    | error fault => exact h
    | ok next => exact h.perform hcall

/-- A catalog that is gathered from its document is the outcome of a history. -/
theorem after_of_gather (h : c.gather.outcome = .ok c') :
    c' = c.after [.dispatch .register, .dispatch .collect, .classify] := by
  obtain ⟨registered, collected, hregistered, hcollected, rfl⟩ := exists_classify_of_gather h
  rw [← catalog_of_report hcollected, ← catalog_of_report hregistered]
  rfl

end Catalog

/-! ### Indexes

With no two keys of one name, a search for the name of a key among all indexes ends at that key's
own index.  For everything else it is enough that the name occurs at all.
-/

namespace Table

/-- The list `indexes` is what the keys, relations and tenants of `t` call for: no two of them have
one name, each key with a name has the index of that name to itself, and nothing else that needs an
index goes without one. -/
structure IsIndexedBy (t : Table) (indexes : List Index) : Prop where
  once : (indexes.map (·.name)).Nodup
  keys : ∀ key ∈ t.keys, ∀ name first rest, key.name = some name → key.fields = first :: rest →
    ∃ i ∈ indexes, (∀ other ∈ indexes, other.name = name → other = i) ∧ i.name = name ∧
      i.partition = first ∧ i.sort = if rest = [] then none else some ("#".intercalate rest)
  relations : ∀ r ∈ t.relationsOf .belongsTo, ∃ i ∈ indexes, r.name = some i.name
  implied : ∀ implied ∈ t.impliedIndexes, ∃ i ∈ indexes, i.name = implied.name
  tenancy : ∀ tenancy, t.tenancy = some tenancy → ∃ i ∈ indexes, i.name = tenancy.indexName

/-- The first index of a name that a key has is that of the key. -/
theorem find?_allIndexes_of_key {t : Table} (hnodup : (t.keys.map (·.name)).Nodup) {key : Key}
    (hkey : key ∈ t.keys) {name : String} (hname : key.name = some name) :
    t.allIndexes.find? (fun i => i.name = name)
      = some { name, partition := key.partition, sort := key.sortKey? } := by
  rw [find?_allIndexes, (find?_eq_some_iff_of_nodup hnodup).2 ⟨hkey, hname⟩, Option.bind_some,
    keyIndex?, hname]
  rfl

theorem isIndexedBy_firstOfName {t : Table} (hnodup : (t.keys.map (·.name)).Nodup)
    (hends : t.EndsAreNamed) : t.IsIndexedBy (firstOfName t.allIndexes) where
  once := nodup_firstOfName t.allIndexes
  keys key hkey name first rest hname hfields := by
    have hfirst := find?_allIndexes_of_key hnodup hkey hname
    refine ⟨{ name, partition := key.partition, sort := key.sortKey? },
      mem_firstOfName_iff.2 hfirst, fun other hother hsame => ?_, rfl, ?_, ?_⟩
    · rw [mem_firstOfName_iff, hsame, hfirst] at hother
      exact (Option.some.inj hother).symm
    · cases hfields
      rfl
    · cases hfields
      simp [Key.sortKey?, keySeparator]
  relations r hr := by
    obtain ⟨name, hname⟩ := Option.isSome_iff_exists.1 (hends r hr)
    obtain ⟨i, hi, rfl, -⟩ :=
      exists_mem_firstOfName (exists_mem_allIndexes (Or.inl ⟨r, hr, hname⟩))
    exact ⟨i, hi, hname⟩
  implied implied himplied := by
    obtain ⟨i, hi, hname, -⟩ :=
      exists_mem_firstOfName (exists_mem_allIndexes (Or.inr ⟨implied, himplied, rfl⟩))
    exact ⟨i, hi, hname⟩
  tenancy tenancy htenancy := by
    have hmem : t.tenancyIndex tenancy ∈ t.allIndexes :=
      List.mem_append_right _ (by simp [htenancy])
    obtain ⟨i, hi, hname, -⟩ := exists_mem_firstOfName ⟨_, hmem, rfl⟩
    exact ⟨i, hi, hname⟩

end Table

namespace Catalog

/-- **Whatever a catalog has gone through, once its relations are classified every table has the
indexes that it calls for** (`Table.IsIndexedBy`). -/
theorem isIndexedBy_after (document : Sdl.Document) (schemaName : String) (scope : Sdl.Scope)
    (calls : List Call) (t : Table)
    (ht : t ∈ (after { document, schemaName, scope } calls).classify.1.tables) :
    ∃ indexes, t.secondaryIndexes = .ok indexes ∧ t.IsIndexedBy indexes := by
  have hkeyed := (isKeyed_empty document schemaName scope).after calls
  have hends := endsAreNamed_of_classify hkeyed.tableNames ht
  exact ⟨_, Table.secondaryIndexes_eq hends,
    Table.isIndexedBy_firstOfName (hkeyed.classify.keyNames t ht) hends⟩

/-- A history in which a key is refused and relations are classified before they are all there. -/
def commentHistory : List Call :=
  [.register ⟨none, "Post", [], [], []⟩ "DYNAMODB",
    .register ⟨none, "Comment", [], [], []⟩ "DYNAMODB", .add "Comment" (.key
      { partition := "author", sortFields := ["day", "time"], name := some "byAuthor" }),
    .add "Comment" (.key { partition := "day", name := some "byAuthor" }),
    .add "Comment" (.relation
      { field := "post", target := "Post", shape := { base := "Post" }, name := some "byPost" }),
    .classify,
    .add "Post" (.relation
      { field := "comments", target := "Comment", shape := { base := "Comment", isList := true },
        name := some "byPost" }),
    .add "Comment" (.tenancy {})]

theorem comment_indexed :
    ∃ t ∈ (after { document := .empty } commentHistory).classify.1.tables,
      (t.keys.length = 1 ∧ (t.relationsOf .belongsTo).length = 1 ∧ t.tenancy.isSome = true) ∧
      ∃ indexes, t.secondaryIndexes = .ok indexes ∧ t.IsIndexedBy indexes := by
  have htable : ∃ t ∈ (after { document := .empty } commentHistory).classify.1.tables,
      t.keys.length = 1 ∧ (t.relationsOf .belongsTo).length = 1 ∧ t.tenancy.isSome = true := by
    decide +kernel
  obtain ⟨t, ht, hgathered⟩ := htable
  exact ⟨t, ht, hgathered, isIndexedBy_after .empty "schema.graphql" none commentHistory t ht⟩

end Catalog

end SchemaLoom
