/-
Where the entries of generated inputs come from.

An input of a table has entries for the fields that are stored, for the attributes that other
tables refer to, and for the fields of the primary key.  Of the entries of one name the first
stays, so every entry that is left is one of these.

The documents of a table are opened here once: what they declare can be told from these entries.
Each builder has a lemma `of_…` that says what it returned if it returned something, and later
modules take a document apart by these (`of_operationDeclarations`, `of_queryDeclarations`,
`mem_sharedDeclarations`) and no longer unfold the builders.

The arguments of operations have fixed names beside those of keys.  What they are called is
stated here too (`listingArguments`, `keyQueryArguments`), as declarations and requests are
compared by it.
-/
import SchemaLoom.Proofs.Lists
import SchemaLoom.Surface.KeyQuery
import SchemaLoom.Surface.Shared

namespace SchemaLoom.Surface

variable {c : Catalog} {t : Table} {key : Key} {e : Entry} {es : List Entry}

theorem mem_of_mem_firstOfName (h : e ∈ Entry.firstOfName es) : e ∈ es := by
  induction es with
  | nil => exact h
  | cons first es ih =>
    rcases List.mem_cons.1 h with rfl | h
    · exact List.mem_cons_self
    · exact List.mem_cons_of_mem first (ih (List.mem_filter.1 h).1)

/-! ### Inputs of tables -/

/-- What is made of the fields that are stored is made of fields of the table. -/
theorem exists_field_of_own {make : Sdl.Field → Except Fault (Option Entry)}
    {own : List (Option Entry)} (hown : (storedFields t).mapM make = .ok own)
    (he : e ∈ own.filterMap id) : ∃ f ∈ t.fields, make f = .ok (some e) := by
  obtain ⟨found, hfound, rfl⟩ := List.mem_filterMap.1 he
  obtain ⟨f, hf, hentry⟩ := Outcome.exists_of_mem_mapM hown hfound
  exact ⟨f, (List.mem_filter.1 hf).1, hentry⟩

/-- The entry `e` is made for a field of the primary key of `t`. -/
def IsKeyEntry (t : Table) (e : Entry) : Prop :=
  e.name ∈ t.primaryKey.fields ∧ t.keyFieldType e.name = .ok e.type.base

theorem isKeyEntry_of_keyEntriesOf (h : keyEntriesOf t = .ok es) (he : e ∈ es) :
    IsKeyEntry t e := by
  obtain ⟨name, hname, hentry⟩ := Outcome.exists_of_mem_mapM h he
  obtain ⟨base, hbase, hentry⟩ := Outcome.of_bind_eq_ok hentry
  cases hentry
  exact ⟨hname, hbase⟩

theorem keyEntriesOf_ne_nil (h : keyEntriesOf t = .ok es) : es ≠ [] := by
  rintro rfl
  have hlength := Outcome.length_of_mapM_eq_ok h
  simp [Key.fields] at hlength

theorem firstOfName_ne_nil (h : es ≠ []) : Entry.firstOfName es ≠ [] := by
  cases es with
  | nil => exact h
  | cons e es => simp [Entry.firstOfName]

/-- The entries of a filter or condition. -/
theorem of_mem_filterFields {name : String} (h : filterFields c t name = .ok es) (he : e ∈ es) :
    (∃ f ∈ t.fields, filterEntry c t f = .ok (some e)) ∨
      (∃ key ∈ t.impliedForeignKeys, e = .plain key Catalog.textFilter) ∨
      e ∈ [.list "and" name, .list "or" name, .plain "not" name] := by
  unfold filterFields at h
  obtain ⟨own, hown, h⟩ := Outcome.of_bind_eq_ok h
  cases h
  rcases List.mem_append.1 he with he | he
  · rcases List.mem_append.1 (mem_of_mem_firstOfName he) with he | he
    · exact Or.inl (exists_field_of_own hown he)
    · obtain ⟨key, hkey, rfl⟩ := List.mem_map.1 he
      exact Or.inr (Or.inl ⟨key, hkey, rfl⟩)
  · exact Or.inr (Or.inr he)

theorem filterFields_ne_nil {name : String} (h : filterFields c t name = .ok es) : es ≠ [] := by
  unfold filterFields at h
  obtain ⟨own, -, h⟩ := Outcome.of_bind_eq_ok h
  cases h
  simp

/-- The entries of the input that creates an item. -/
theorem of_mem_createFields (h : createFields c t = .ok es) (he : e ∈ es) :
    (∃ isGenerated, ∃ f ∈ t.fields, createEntry c t isGenerated f = .ok (some e)) ∨
      (∃ key ∈ t.impliedForeignKeys, e = .plain key "String") ∨ IsKeyEntry t e := by
  unfold createFields at h
  obtain ⟨isGenerated, -, h⟩ := Outcome.of_bind_eq_ok h
  obtain ⟨own, hown, h⟩ := Outcome.of_bind_eq_ok h
  obtain ⟨keys, hkeys, h⟩ := Outcome.of_bind_eq_ok h
  cases h
  rcases List.mem_append.1 (mem_of_mem_firstOfName he) with he | he
  · rcases List.mem_append.1 he with he | he
    · exact Or.inl ⟨isGenerated, exists_field_of_own hown he⟩
    · obtain ⟨key, hkey, rfl⟩ := List.mem_map.1 he
      exact Or.inr (Or.inl ⟨key, hkey, rfl⟩)
  · obtain ⟨name, hname, hentry⟩ := Outcome.exists_of_mem_mapM hkeys he
    obtain ⟨base, hbase, hentry⟩ := Outcome.of_bind_eq_ok hentry
    cases hentry
    refine Or.inr (Or.inr ?_)
    split
    · exact ⟨hname, hbase⟩
    · exact ⟨hname, hbase⟩

theorem createFields_ne_nil (h : createFields c t = .ok es) : es ≠ [] := by
  unfold createFields at h
  obtain ⟨isGenerated, -, h⟩ := Outcome.of_bind_eq_ok h
  obtain ⟨own, -, h⟩ := Outcome.of_bind_eq_ok h
  obtain ⟨keys, hkeys, h⟩ := Outcome.of_bind_eq_ok h
  cases h
  apply firstOfName_ne_nil
  have hlength := Outcome.length_of_mapM_eq_ok hkeys
  rintro hnone
  simp [(List.append_eq_nil_iff.1 hnone).2, Key.fields] at hlength

/-- The entries of the input that changes an item. -/
theorem of_mem_updateFields (h : updateFields c t = .ok es) (he : e ∈ es) :
    (∃ f ∈ t.fields, updateEntry c t f = .ok (some e)) ∨
      (∃ key ∈ t.impliedForeignKeys, e = .plain key "String") ∨ IsKeyEntry t e := by
  unfold updateFields at h
  obtain ⟨own, hown, h⟩ := Outcome.of_bind_eq_ok h
  obtain ⟨keys, hkeys, h⟩ := Outcome.of_bind_eq_ok h
  cases h
  rcases List.mem_append.1 (mem_of_mem_firstOfName he) with he | he
  · rcases List.mem_append.1 he with he | he
    · exact Or.inl (exists_field_of_own hown he)
    · obtain ⟨key, hkey, rfl⟩ := List.mem_map.1 he
      exact Or.inr (Or.inl ⟨key, hkey, rfl⟩)
  · exact Or.inr (Or.inr (isKeyEntry_of_keyEntriesOf hkeys he))

theorem updateFields_ne_nil (h : updateFields c t = .ok es) : es ≠ [] := by
  unfold updateFields at h
  obtain ⟨own, -, h⟩ := Outcome.of_bind_eq_ok h
  obtain ⟨keys, hkeys, h⟩ := Outcome.of_bind_eq_ok h
  cases h
  apply firstOfName_ne_nil
  intro hnone
  exact keyEntriesOf_ne_nil hkeys (List.append_eq_nil_iff.1 hnone).2

/-! ### Names of what is declared

Entries are made for names one by one, and each has the name that it is made for.  So the names of
the entries for a key are its fields, and those of the arguments of a query by a key are known
before their types are.
-/

theorem names_of_mapM {names : List String} {make : String → Except Fault Entry}
    (hmake : ∀ name e, make name = .ok e → e.name = name) (h : names.mapM make = .ok es) :
    es.map (·.name) = names := by
  have hflat : es.flatMap (fun e => [e.name]) = names.flatMap fun name => [name] :=
    Outcome.flatMap_of_mapM_eq_ok (fun name _ e he => by rw [hmake name e he]) h
  rw [List.map_eq_flatMap, hflat, List.flatMap_singleton']

theorem names_of_keyEntriesOf (h : keyEntriesOf t = .ok es) :
    es.map (·.name) = t.primaryKey.fields := by
  refine names_of_mapM (fun name e he => ?_) h
  obtain ⟨base, -, he⟩ := Outcome.of_bind_eq_ok he
  cases he
  rfl

/-- The arguments of a listing besides those for its key. -/
def listingArguments : List String := ["sortDirection", "filter", "limit", "nextToken"]

/-- The arguments of a query by `key`: one for its partition, one for all sort fields together, and
those of every listing. -/
def keyQueryArguments (key : Key) : List String :=
  key.partition :: key.sortArgument?.toList ++ listingArguments

/-- A query by `key` has a type for its sort argument just if `key` has sort fields. -/
theorem isSome_sortArgumentType? {sort : Option String} (h : sortArgumentType? t key = .ok sort) :
    sort.isSome = key.sortArgument?.isSome := by
  unfold sortArgumentType? at h
  unfold Key.sortArgument?
  split at h
  next hnone =>
    cases h
    simp [hnone]
  next field hone =>
    obtain ⟨base, -, h⟩ := Outcome.of_bind_eq_ok h
    cases h
    simp [hone]
  next hnotnone _ =>
    have hsome : key.sortFields ≠ [] := hnotnone
    cases h
    simp [hsome]

theorem of_queryOperation {o : Operation} (h : queryOperation t key = .ok o) :
    o.name = queryName key ∧ o.arguments.map (·.name) = keyQueryArguments key := by
  unfold queryOperation at h
  obtain ⟨base, -, h⟩ := Outcome.of_bind_eq_ok h
  obtain ⟨sort, hsort, h⟩ := Outcome.of_bind_eq_ok h
  cases h
  refine ⟨rfl, ?_⟩
  unfold keyQueryArguments
  have hsome := isSome_sortArgumentType? hsort
  cases hargument : key.sortArgument? with
  | none =>
    rw [hargument, Option.isSome_none, Option.isSome_eq_false_iff, Option.isNone_iff_eq_none]
      at hsome
    rw [hsome]
    rfl
  | some argument =>
    rw [hargument, Option.isSome_some, Option.isSome_iff_exists] at hsome
    obtain ⟨type, rfl⟩ := hsome
    rfl

/-- The inputs for a composite `key`: conditions on all of its sort fields, and values for them. -/
theorem of_compositeInputs {ds : List Declaration} (h : compositeInputs t key = .ok ds) :
    ∃ parts, ds = [.input (compositeConditionName t key)
        (compositeOperators.map (Entry.plain · (compositeKeyName t key))
          ++ [.list "between" (compositeKeyName t key),
            .plain "beginsWith" (compositeKeyName t key)]),
      .input (compositeKeyName t key) parts] ∧ parts.map (·.name) = key.sortFields := by
  unfold compositeInputs at h
  obtain ⟨parts, hparts, h⟩ := Outcome.of_bind_eq_ok h
  cases h
  refine ⟨parts, rfl, names_of_mapM (fun name e he => ?_) hparts⟩
  obtain ⟨base, -, he⟩ := Outcome.of_bind_eq_ok he
  cases he
  rfl

/-! ### Shared declarations -/

/-- The entries of a mirror are made of the fields of its type. -/
theorem of_mem_mirrorFields {name : String} (h : mirrorFields c name = .ok es) (he : e ∈ es) :
    ∃ o, c.objectType? name = some o ∧ ∃ f ∈ o.fields, mirrorEntry c f = .ok (some e) := by
  unfold mirrorFields at h
  obtain ⟨found, hfound, h⟩ := Outcome.of_bind_eq_ok h
  cases h
  obtain ⟨given, hgiven, rfl⟩ := List.mem_filterMap.1 he
  obtain ⟨f, hf, hentry⟩ := Outcome.exists_of_mem_mapM hfound hgiven
  cases hobject : c.objectType? name with
  | none =>
    rw [hobject] at hf
    cases hf
  | some o =>
    rw [hobject] at hf
    exact ⟨o, rfl, f, hf, hentry⟩

/-- The declaration of a mirror. -/
theorem of_mirror?_eq_some {name : String} {d : Declaration} (h : mirror? c name = .ok (some d)) :
    ∃ fields, mirrorFields c name = .ok fields ∧ fields ≠ [] ∧
      d = .input (name ++ "Input") fields := by
  unfold mirror? at h
  obtain ⟨fields, hfields, h⟩ := Outcome.of_bind_eq_ok h
  split at h
  · cases h
  next hsome =>
    cases h
    exact ⟨fields, hfields, by simpa using hsome, rfl⟩

/-- The fields of a type without a mirror are left out of it. -/
theorem of_mirror?_eq_none {name : String} (h : mirror? c name = .ok none) {o : Sdl.ObjectType}
    (hobject : c.objectType? name = some o) : ∀ f ∈ o.fields, mirrorEntry c f = .ok none := by
  unfold mirror? at h
  obtain ⟨fields, hfields, h⟩ := Outcome.of_bind_eq_ok h
  split at h
  next hnone =>
    rw [List.isEmpty_iff.1 hnone] at hfields
    unfold mirrorFields at hfields
    rw [hobject, Option.elim_some] at hfields
    obtain ⟨found, hfound, hfields⟩ := Outcome.of_bind_eq_ok hfields
    have hleft : found.filterMap id = [] := Except.ok.inj hfields
    intro f hf
    obtain ⟨given, hgiven, hentry⟩ := Outcome.exists_result_of_mem hfound hf
    rwa [show given = none from List.filterMap_eq_nil_iff.1 hleft given hgiven] at hentry
  · cases h

/-- A field that is left out of a mirror is of a type that no input can hold, or of a table. -/
theorem of_mirrorEntry_eq_none {f : Sdl.Field} (h : mirrorEntry c f = .ok none) :
    ∃ shape, shapeOf f.type = .ok shape ∧
      (c.category shape.base = .model ∨ c.category shape.base = .opaqueType) := by
  unfold mirrorEntry at h
  obtain ⟨shape, hshape, h⟩ := Outcome.of_bind_eq_ok h
  refine ⟨shape, hshape, ?_⟩
  split at h
  next hmodel => exact Or.inl hmodel
  next hother => exact Or.inr hother
  all_goals cases h

/-! ### Generated documents

The declarations of each document are listed, so that whatever is said about all of them is said
about the members of a list.
-/

/-- The operation that gets an item. -/
def getOperation (t : Table) (key : List Entry) : Operation where
  name := getName t
  arguments := key
  type := { base := t.name }
  directives := openedTo t .read

/-- The operation that lists items. -/
def listOperation (t : Table) : Operation where
  name := listName t
  arguments :=
    [.plain "filter" (filterName t.name), .plain "limit" "Int", .plain "nextToken" "String"]
  type := { base := connectionName t.name }
  directives := openedTo t .read

/-- What the document of a table declares.  An item is deleted by the entries that it is found
by. -/
theorem of_operationDeclarations {ds : List Declaration} (h : operationDeclarations c t = .ok ds) :
    ∃ key condition filter create update, keyEntriesOf t = .ok key ∧
      filterFields c t (conditionName t.name) = .ok condition ∧
      filterFields c t (filterName t.name) = .ok filter ∧
      createFields c t = .ok create ∧ updateFields c t = .ok update ∧
      ds = [.extension "Query" [getOperation t key, listOperation t],
        .extension "Mutation" (mutations.map (mutation t)),
        .object (connectionName t.name) [.list "items" t.name, .plain "nextToken" "String"],
        .input (conditionName t.name) condition, .input (filterName t.name) filter,
        .input (inputName t.name .create) create, .input (inputName t.name .update) update,
        .input (inputName t.name .delete) key] := by
  unfold operationDeclarations deleteFields at h
  obtain ⟨key, hkey, h⟩ := Outcome.of_bind_eq_ok h
  obtain ⟨condition, hcondition, h⟩ := Outcome.of_bind_eq_ok h
  obtain ⟨filter, hfilter, h⟩ := Outcome.of_bind_eq_ok h
  obtain ⟨create, hcreate, h⟩ := Outcome.of_bind_eq_ok h
  obtain ⟨update, hupdate, h⟩ := Outcome.of_bind_eq_ok h
  rw [hkey, Outcome.ok_bind] at h
  cases h
  exact ⟨key, condition, filter, create, update, hkey, hcondition, hfilter, hcreate, hupdate, rfl⟩

/-- What the document of a query by a key declares: the query, and the inputs of a composite key. -/
theorem of_queryDeclarations {key : Key} {ds : List Declaration}
    (h : queryDeclarations t key = .ok ds) :
    ∃ o inputs, ds = .extension "Query" [o] :: inputs ∧ queryOperation t key = .ok o ∧
      (key.isComposite = true ∧ compositeInputs t key = .ok inputs ∨
        key.isComposite = false ∧ inputs = []) := by
  unfold queryDeclarations at h
  obtain ⟨o, hoperation, h⟩ := Outcome.of_bind_eq_ok h
  split at h
  next hcomposite =>
    obtain ⟨inputs, hinputs, h⟩ := Outcome.of_bind_eq_ok h
    cases h
    exact ⟨o, inputs, rfl, hoperation, Or.inl ⟨hcomposite, hinputs⟩⟩
  next hsingle =>
    cases h
    exact ⟨o, [], rfl, hoperation, Or.inr ⟨by simpa using hsingle, rfl⟩⟩

theorem exists_input_of_mem_compositeInputs {key : Key} {inputs : List Declaration}
    (h : compositeInputs t key = .ok inputs) {d : Declaration} (hd : d ∈ inputs) :
    ∃ name parts, d = .input name parts := by
  obtain ⟨parts, rfl, -⟩ := of_compositeInputs h
  simp only [List.mem_cons, List.not_mem_nil, or_false] at hd
  rcases hd with rfl | rfl
  · exact ⟨_, _, rfl⟩
  · exact ⟨_, _, rfl⟩

/-- Besides the query, inputs are declared. -/
theorem exists_input_of_query {key : Key} {o : Operation} {inputs : List Declaration}
    (h : queryDeclarations t key = .ok (.extension "Query" [o] :: inputs)) {d : Declaration}
    (hd : d ∈ inputs) : ∃ name parts, d = .input name parts := by
  obtain ⟨_, others, hsame, -, ⟨-, hinputs⟩ | ⟨-, rfl⟩⟩ := of_queryDeclarations h
  · cases hsame
    exact exists_input_of_mem_compositeInputs hinputs hd
  · cases hsame
    cases hd

/-- The declarations that all tables share. -/
theorem mem_sharedDeclarations {ds : List Declaration} (h : sharedDeclarations c = .ok ds) :
    Outcome.Holds (typesInUse c) fun used =>
      (∀ name ∈ used.objects, ∃ found, mirror? c name = .ok found) ∧ ∀ d, d ∈ ds ↔
        (∃ name ∈ ["Query", "Mutation"], c.declares [.object] name = false ∧ d = .root name) ∨
          d ∈ commonDeclarations ∨ (∃ name ∈ used.enums, d = enumFilter name) ∨
          ∃ name ∈ used.objects, mirror? c name = .ok (some d) := by
  unfold sharedDeclarations at h
  obtain ⟨used, hused, h⟩ := Outcome.of_bind_eq_ok h
  obtain ⟨mirrors, hmirrors, h⟩ := Outcome.of_bind_eq_ok h
  cases h
  refine ⟨used, hused, fun name hname => ?_, fun d => ?_⟩
  · obtain ⟨found, -, hfound⟩ := Outcome.exists_result_of_mem hmirrors hname
    exact ⟨found, hfound⟩
  have hmirror :
      d ∈ mirrors.filterMap id ↔ ∃ name ∈ used.objects, mirror? c name = .ok (some d) := by
    rw [List.mem_filterMap]
    constructor
    · rintro ⟨given, hgiven, rfl⟩
      exact Outcome.exists_of_mem_mapM hmirrors hgiven
    · rintro ⟨name, hname, his⟩
      obtain ⟨given, hgiven, hsame⟩ := Outcome.exists_result_of_mem hmirrors hname
      rw [his] at hsame
      cases hsame
      exact ⟨some d, hgiven, rfl⟩
  rw [List.mem_append, List.mem_append, List.mem_append, hmirror]
  simp only [List.mem_map, List.mem_filter, Bool.not_eq_true', or_assoc, and_assoc,
    eq_comm (b := d)]

end SchemaLoom.Surface
