/-
The key schemas of tables and indexes.

All key schemas that are emitted stand in the declarations of tables: there is that of the
primary key, and an edit brings that of each index.  Each says one attribute to be hashed and
perhaps another one to be ranged over (`IsKeySchema`).

Nothing keeps the two apart.  They come from declarations that do not look at each other, so that
one attribute may be named twice, in three ways (`DoublesAttribute`): the sort fields of a key,
joined, may read like its partition; a relation may be sorted by its own foreign key; and the
tenant may be kept in the partition of the primary key.

Key schemas are found in fragments as trees under the key of that name, anywhere (`Tree.under`),
so the statement covers whatever else an emission might bring.  Two lemmas carry it: the
declaration of a table has just those of the table and its indexes
(`flatMap_keySchemas_storage`), and no other part has any (`flatMap_keySchemas_part`).
-/
import SchemaLoom.Proofs.Catalog.History
import SchemaLoom.Proofs.Catalog.Noting
import SchemaLoom.Proofs.Surface.Storage

namespace SchemaLoom

open Artifact Surface

/-! ### Parts of trees

What stands under a key is collected from the whole tree, so that it does not matter how deep a
declaration keeps its properties.  The lemmas let `simp` compute it for trees that are written
out.
-/

namespace Tree

mutual

/-- What the entries of a key hold, anywhere in a tree. -/
def under (key : String) : Tree → List Tree
  | list items => underItems key items
  | map entries => underEntries key entries
  | _ => []

/-- What the entries of a key hold, anywhere in the items of a list. -/
def underItems (key : String) : List Tree → List Tree
  | [] => []
  | t :: ts => t.under key ++ underItems key ts

/-- What the entries of a key hold, among the entries of a mapping and anywhere in them. -/
def underEntries (key : String) : List (Scalar × Tree) → List Tree
  | [] => []
  | (k, v) :: rest =>
    (if k.sameKey (.text key) then [v] else []) ++ v.under key ++ underEntries key rest

end

variable {key : String}

@[simp] theorem under_leaf (value : Scalar) : (leaf value).under key = [] := by
  simp [under]

@[simp] theorem under_list (ts : List Tree) : (list ts).under key = ts.flatMap (·.under key) := by
  rw [under]
  induction ts with
  | nil => rfl
  | cons t ts ih => rw [underItems, ih, List.flatMap_cons]

@[simp] theorem under_record_nil : (record []).under key = [] := by
  simp [record, under, underEntries]

@[simp] theorem under_record_cons (name : String) (v : Tree) (es : List (String × Tree)) :
    (record ((name, v) :: es)).under key
      = (if name = key then [v] else []) ++ v.under key ++ (record es).under key := by
  simp [record, under, underEntries]

end Tree

/-- What a patch puts under a key: at its path, or within its value. -/
def TreePatch.under (key : String) : TreePatch → List Tree
  | replaceAt path value | appendAt path value =>
    (if (pathSegments path).getLast? = some key then [value] else []) ++ value.under key

namespace Surface

/-! ### Reading key schemas

A key schema is recognised by its place in a declaration, under whatever the tree says.  So the
statement is about what is emitted, and not about the function that writes key schemas.
-/

/-- The attributes that a key schema names for a role. -/
def attributesAs (role : String) : Tree → List String
  | .list items => items.filterMap fun item =>
    if (item.get? "KeyType").bind (·.text?) = some role then
      (item.get? "AttributeName").bind (·.text?)
    else none
  | _ => []

/-- The tree `schema` lists one attribute that is hashed, at most one that is ranged over, and
nothing else. -/
structure IsKeySchema (schema : Tree) : Prop where
  hash : (attributesAs "HASH" schema).length = 1
  range : (attributesAs "RANGE" schema).length ≤ 1
  nothingElse : ∃ items, schema = .list items ∧
    items.length = (attributesAs "HASH" schema).length + (attributesAs "RANGE" schema).length

/-- The tree `schema` names one attribute for both roles. -/
def NamesOneTwice (schema : Tree) : Prop :=
  ∃ name, name ∈ attributesAs "HASH" schema ∧ name ∈ attributesAs "RANGE" schema

theorem attributesAs_keySchema (partition : String) (sort : Option String) :
    attributesAs "HASH" (keySchema partition sort) = [partition] ∧
      attributesAs "RANGE" (keySchema partition sort) = sort.toList := by
  cases sort <;>
    simp [attributesAs, keySchema, Tree.get?_record_of_ne, Tree.text?]

theorem isKeySchema_keySchema (partition : String) (sort : Option String) :
    IsKeySchema (keySchema partition sort) := by
  obtain ⟨hhash, hrange⟩ := attributesAs_keySchema partition sort
  refine ⟨?_, ?_, ?_⟩
  · rw [hhash]
    rfl
  · rw [hrange]
    cases sort <;> simp
  · rw [hhash, hrange]
    refine ⟨_, rfl, ?_⟩
    cases sort <;> rfl

theorem namesOneTwice_keySchema {partition : String} {sort : Option String} :
    NamesOneTwice (keySchema partition sort) ↔ sort = some partition := by
  obtain ⟨hhash, hrange⟩ := attributesAs_keySchema partition sort
  rw [NamesOneTwice, hhash, hrange]
  cases sort <;> simp [eq_comm]

end Surface

/-- The key schemas in what a fragment provides or edits, with its location. -/
def Artifact.Fragment.keySchemas (f : Fragment) : List (String × Tree) :=
  let provided :=
    match f.payload with
    | .tree t => t.under "KeySchema"
    | _ => []
  let edited :=
    match f.patch with
    | some (.tree patch) => patch.under "KeySchema"
    | _ => []
  (provided ++ edited).map (f.location, ·)

/-- The key schemas of a table and of its indexes. -/
def Table.keySchemas (t : Table) : List Tree :=
  keySchema t.primaryKey.partition t.primaryKey.sortKey?
    :: (Table.firstOfName t.allIndexes).map fun i => keySchema i.partition i.sort

/-! ### Key schemas that are emitted

Trees and patches are followed separately: a tree holds the schema of the primary key, and each
patch appends the declaration of one index.
-/

namespace Surface

variable {location : String}

@[simp] theorem keySchemas_ofText (text : String) :
    (Fragment.ofText location text).keySchemas = [] := by
  simp [Fragment.keySchemas, Fragment.ofText]

@[simp] theorem keySchemas_ofEdit (e : Sdl.Edit) :
    (Fragment.ofEdit location e).keySchemas = [] := by
  simp [Fragment.keySchemas, Fragment.ofEdit]

theorem keySchemas_ofTree (t : Tree) :
    (Fragment.ofTree location t).keySchemas = (t.under "KeySchema").map (location, ·) := by
  simp [Fragment.keySchemas, Fragment.ofTree]

theorem keySchemas_ofPatch (p : TreePatch) :
    (Fragment.ofPatch location p).keySchemas = (p.under "KeySchema").map (location, ·) := by
  simp [Fragment.keySchemas, Fragment.ofPatch]

theorem getLast?_propertyPath (t : Table) {property : String} (hproperty : '#' ∉ property.toList) :
    (pathSegments (propertyPath t property)).getLast? = some property := by
  let hash := String.singleton pathSeparator
  have hpath : propertyPath t property
      = "Resources" ++ hash ++ resourceName t ++ hash ++ "Properties" ++ hash ++ property := by
    simp only [hash, propertyPath, String.intercalate_cons_cons, String.intercalate_singleton,
      String.append_assoc]
  rw [hpath]
  exact getLast?_splitAtChar hproperty _

theorem under_keySchema : (keySchema partition sort).under "KeySchema" = [] := by
  cases sort <;> simp [keySchema]

theorem under_attributeDefinition {t : Table} {name : String} {d : Tree}
    (h : attributeDefinition t name = .ok d) : d.under "KeySchema" = [] := by
  obtain ⟨letter, -, rfl⟩ := of_attributeDefinition h
  simp

theorem under_indexDeclaration (i : Index) :
    (indexDeclaration i).under "KeySchema" = [keySchema i.partition i.sort] := by
  simp [indexDeclaration, throughput, under_keySchema]

theorem flatMap_under_of_mapM {t : Table} {names : List String} {ds : List Tree}
    (h : names.mapM (attributeDefinition t) = .ok ds) :
    ds.flatMap (·.under "KeySchema") = [] := by
  rw [List.flatMap_eq_nil_iff]
  intro d hd
  obtain ⟨name, -, hname⟩ := Outcome.exists_of_mem_mapM h hd
  exact under_attributeDefinition hname

theorem resourceName_ne (t : Table) : resourceName t ≠ "KeySchema" := by
  intro hsame
  have hlast := congrArg (·.toList.getLast?) hsame
  simp [resourceName, List.getLast?_append] at hlast

/-- **The declaration of a table has the key schemas of the table and of its indexes, in order.** -/
theorem flatMap_keySchemas_storage {t : Table} (hends : t.EndsAreNamed) {fs : List Fragment}
    (h : storageFragments t = .ok fs) :
    fs.flatMap (·.keySchemas) = t.keySchemas.map (tableLocation t.name, ·) := by
  obtain ⟨own, others, attributes, indexes, hown, -, hothers, hindexes, rfl⟩ :=
    storageFragments_eq_ok.1 h
  rw [Table.secondaryIndexes_eq hends, Except.ok.injEq] at hindexes
  subst hindexes
  have hstack : (stackOf t (properties t own [])).under "KeySchema"
      = [keySchema t.primaryKey.partition t.primaryKey.sortKey?] := by
    simp [stackOf, properties, throughput, under_keySchema, flatMap_under_of_mapM hown,
      resourceName_ne]
  have hdefinition : ∀ d ∈ others, (Fragment.ofPatch (tableLocation t.name)
      (.replaceAt (propertyPath t "AttributeDefinitions") d)).keySchemas = [] := by
    intro d hd
    have hunder := List.flatMap_eq_nil_iff.1 (flatMap_under_of_mapM hothers) d hd
    rw [keySchemas_ofPatch, TreePatch.under, getLast?_propertyPath t (by decide), hunder]
    rfl
  have hindex : ∀ i : Index, (Fragment.ofPatch (tableLocation t.name)
      (.appendAt (propertyPath t "GlobalSecondaryIndexes") (indexDeclaration i))).keySchemas
        = [(tableLocation t.name, keySchema i.partition i.sort)] := by
    intro i
    rw [keySchemas_ofPatch, TreePatch.under, getLast?_propertyPath t (by decide),
      under_indexDeclaration]
    rfl
  rw [declaring, List.flatMap_append, List.flatMap_cons, keySchemas_ofTree, hstack,
    List.flatMap_map, List.flatMap_map, List.flatMap_eq_nil_iff.2 hdefinition, List.append_nil]
  simp only [hindex, Table.keySchemas, ← List.map_eq_flatMap, List.map_cons, List.map_map,
    List.map_nil, List.singleton_append]
  rfl

/-! ### Nothing else has key schemas

Templates are texts, edits are about the published schema, and bindings have other members.
-/

@[simp] theorem keySchemas_templatePair {name : String} {request response : Resolver.Template}
    {isKept : Bool} : (templatePair name request response isKept).flatMap (·.keySchemas) = [] := by
  simp [templatePair, Fragment.keySchemas, Fragment.ofText]

@[simp] theorem keySchemas_fieldTemplates {type field : String}
    {request response : Resolver.Template} :
    (fieldTemplates type field request response).flatMap (·.keySchemas) = [] :=
  keySchemas_templatePair

@[simp] theorem under_binding (source type field : String) :
    (binding source type field []).under "KeySchema" = [] := by
  simp [binding]

@[simp] theorem under_steppedBinding (source type field : String) (steps : List String) :
    (steppedBinding source type field steps).under "KeySchema" = [] := by
  simp [steppedBinding, binding, List.flatMap_map]

@[simp] theorem under_stepDeclaration (name source : String) :
    (stepDeclaration name source).under "KeySchema" = [] := by
  simp [stepDeclaration]

theorem keySchemas_bindings {items : List Tree} (h : ∀ item ∈ items, item.under "KeySchema" = []) :
    (Fragment.ofTree location (.list items)).keySchemas = [] := by
  rw [keySchemas_ofTree, Tree.under_list, List.flatMap_eq_nil_iff.2 h]
  rfl

theorem flatMap_keySchemas_flatten (parts : List (List Fragment)) :
    parts.flatten.flatMap (·.keySchemas) = parts.flatMap fun fs => fs.flatMap (·.keySchemas) := by
  rw [List.flatten_eq_flatMap, List.flatMap_assoc]
  rfl

theorem keySchemas_edits (es : List Sdl.Edit) :
    (es.map (Fragment.ofEdit location)).flatMap (·.keySchemas) = [] := by
  simp [List.flatMap_map]

theorem keySchemas_operationBindings (t : Table) :
    (Fragment.ofTree location (.list (operationBindings t))).keySchemas = [] := by
  refine keySchemas_bindings fun item hitem => ?_
  simp only [operationBindings, List.mem_cons, List.not_mem_nil, or_false] at hitem
  rcases hitem with rfl | rfl | rfl | rfl | rfl
  · simp
  · simp
  · simp
  · split <;> simp
  · split <;> simp

theorem keySchemas_operationTemplates {t : Table} {fs : List Fragment}
    (h : operationTemplates t = .ok fs) : fs.flatMap (·.keySchemas) = [] := by
  unfold operationTemplates at h
  obtain ⟨isGenerated, -, h⟩ := Outcome.of_bind_eq_ok h
  cases h
  split
  · simp [directMutations]
  · simp [steppedMutations, keySchemas_bindings]

end Surface

namespace Catalog

variable {c : Catalog} {t : Table}

/-- **Of the parts of a table its declaration alone has key schemas.** -/
theorem flatMap_keySchemas_part (hends : t.EndsAreNamed) {part : TablePart} {fs : List Fragment}
    (h : (c.partFragments t part).outcome = .ok fs) : fs.flatMap (·.keySchemas) =
      if part = .storage then t.keySchemas.map (tableLocation t.name, ·) else [] := by
  cases part with
  | storage => exact flatMap_keySchemas_storage hends h
  | operations =>
    simp only [partFragments, operationFragments, Report.outcome_bind, Report.outcome_lift] at h
    obtain ⟨schema, -, h⟩ := Outcome.of_bind_eq_ok h
    obtain ⟨templates, htemplates, h⟩ := Outcome.of_bind_eq_ok h
    cases h
    simp [typeEdits_eq, keySchemas_edits, keySchemas_operationBindings,
      keySchemas_operationTemplates htemplates]
  | query key =>
    simp only [partFragments, Report.outcome_lift, queryFragments] at h
    obtain ⟨schema, -, h⟩ := Outcome.of_bind_eq_ok h
    cases h
    simp [keySchemas_bindings]
  | relation r =>
    simp only [partFragments, Report.outcome_pure, Except.ok.injEq] at h
    subst h
    by_cases hmany : r.toMany = true <;> simp [relationFragments, keySchemas_bindings, hmany]

theorem flatMap_keySchemas_table (hends : t.EndsAreNamed) {fs : List Fragment}
    (h : (c.tableFragments t).outcome = .ok fs) :
    fs.flatMap (·.keySchemas) = t.keySchemas.map (tableLocation t.name, ·) := by
  rw [tableFragments, Report.outcome_map, Report.outcome_mapM] at h
  obtain ⟨parts, hparts, h⟩ := Outcome.of_bind_eq_ok h
  cases h
  rw [flatMap_keySchemas_flatten, Outcome.flatMap_of_mapM_eq_ok
    (fun part _ fs hfragments => flatMap_keySchemas_part hends hfragments) hparts]
  simp [Table.parts, List.flatMap_map]

theorem flatMap_keySchemas_binding (b : Binding) :
    (bindingFragments c b).flatMap (·.keySchemas) = [] := by
  cases b with
  | function type field source =>
    simp only [bindingFragments, functionFragments]
    split <;> simp [keySchemas_bindings]
  | foreignInput type field foreignKey isCondition => simp [bindingFragments]

/-- **The key schemas that are emitted are those of the tables, in order.** -/
theorem flatMap_keySchemas_emit (hends : ∀ t ∈ c.tables, t.EndsAreNamed) {fs : List Fragment}
    (h : c.emit.outcome = .ok fs) : fs.flatMap (·.keySchemas) =
      c.tables.flatMap fun t => t.keySchemas.map (tableLocation t.name, ·) := by
  simp only [emit, Report.outcome_bind, Report.outcome_mapM, Report.outcome_lift] at h
  obtain ⟨tables, htables, h⟩ := Outcome.of_bind_eq_ok h
  obtain ⟨shared, hshared, h⟩ := Outcome.of_bind_eq_ok h
  have hsharednone : shared.flatMap (·.keySchemas) = [] := by
    unfold sharedFragments at hshared
    split at hshared
    · cases hshared
      rfl
    · obtain ⟨schema, -, rfl⟩ := Outcome.of_map_eq_ok hshared
      simp
  have hall : (tables.flatten ++ c.bindings.flatMap (bindingFragments c) ++ shared
      ++ stripFragments c).flatMap (·.keySchemas)
        = c.tables.flatMap fun t => t.keySchemas.map (tableLocation t.name, ·) := by
    rw [List.flatMap_append, List.flatMap_append, List.flatMap_append, hsharednone,
      stripFragments, keySchemas_edits, List.append_nil, List.append_nil, List.flatMap_assoc,
      flatMap_keySchemas_flatten, Outcome.flatMap_of_mapM_eq_ok
        (fun t ht fs hfragments => flatMap_keySchemas_table (hends t ht) hfragments) htables,
      List.flatMap_eq_nil_iff.2 fun b _ => flatMap_keySchemas_binding b, List.append_nil]
  split at h
  · cases h
    rw [List.flatMap_cons, seed, keySchemas_ofText, List.nil_append]
    exact hall
  · cases h
    exact hall

end Catalog

/-! ### Attributes that are named twice

An index comes from a key, a relation, an implication or the tenants.  Going through these cases
in turn gives the three ways, since an implied index is not sorted (`ImpliesUnsorted`).  The way
back needs that the index in question is the one that is kept of its name.
-/

/-- A key of fields that differ has its partition for its sort attribute only if several sort fields
read like it when they are joined. -/
theorem Key.sortKey?_eq_partition_iff {key : Key} (hdistinct : key.fields.Nodup) :
    key.sortKey? = some key.partition ↔
      key.isComposite = true ∧ key.partition = "#".intercalate key.sortFields := by
  unfold Key.sortKey? Key.isComposite keySeparator
  cases hsort : key.sortFields with
  | nil => simp
  | cons first rest =>
    cases rest with
    | nil =>
      rw [Key.fields, hsort] at hdistinct
      have hother : first ≠ key.partition := by
        rintro rfl
        simp at hdistinct
      simpa using hother
    | cons second rest => simp [eq_comm]

namespace Table

variable {t : Table}

/-- A key schema of `t` names one attribute twice: that of a key whose sort fields read like its
partition when they are joined; that of a relation sorted by its own foreign key, unless another
index took its name; or that of tenants kept in the partition of the primary key, unless another
index took its name. -/
inductive DoublesAttribute (t : Table) : Prop where
  | key {key : Key} (hkey : key ∈ t.keys) (hcomposite : key.isComposite = true)
    (hsame : key.partition = "#".intercalate key.sortFields)
  | relation {r : Relation} {name : String} (hkeys : ∀ key ∈ t.keys, key.name ≠ some name)
    (hend : (t.relationsOf .belongsTo).find? (fun e => e.name = some name) = some r)
    (hsame : r.sortField = some (t.foreignKey r))
  | tenancy {tenancy : Tenancy} (htenancy : t.tenancy = some tenancy)
    (hkeys : ∀ key ∈ t.keys, key.name ≠ some tenancy.indexName)
    (hends : ∀ r ∈ t.relationsOf .belongsTo, r.name ≠ some tenancy.indexName)
    (himplied : ∀ i ∈ t.impliedIndexes, i.name ≠ tenancy.indexName)
    (hsame : tenancy.field = t.primaryKey.partition)

/-- The primary key is one of the keys, or none of them is primary. -/
theorem primaryKey_cases (t : Table) : t.primaryKey ∈ t.keys ∨ t.primaryKey = defaultKey := by
  unfold primaryKey
  cases hfound : t.keys.find? (·.isPrimary) with
  | none => exact Or.inr rfl
  | some key => exact Or.inl (List.mem_of_find?_eq_some hfound)

/-- With names of their own, the key without one is the primary key. -/
theorem primaryKey_eq (hnodup : (t.keys.map (·.name)).Nodup) {key : Key} (hkey : key ∈ t.keys)
    (hname : key.name = none) : t.primaryKey = key := by
  have hfound : t.keys.find? (fun k => k.name = none) = some key :=
    (find?_eq_some_iff_of_nodup hnodup).2 ⟨hkey, hname⟩
  have hprimary : (fun k : Key => k.isPrimary) = fun k => decide (k.name = none) := by
    funext k
    cases hname : k.name <;> simp [Key.isPrimary, hname]
  rw [primaryKey, hprimary, hfound]
  rfl

@[simp] theorem name_tenancyIndex (t : Table) (tenancy : Tenancy) :
    (t.tenancyIndex tenancy).name = tenancy.indexName :=
  rfl

/-- What an index that names one attribute twice comes from. -/
theorem doublesAttribute_of_index (hdistinct : ∀ key ∈ t.keys, key.fields.Nodup)
    (hunsorted : ∀ i ∈ t.impliedIndexes, i.sort = none) {i : Index}
    (hi : i ∈ firstOfName t.allIndexes) (hsame : i.sort = some i.partition) :
    t.DoublesAttribute := by
  rw [mem_firstOfName_iff, find?_allIndexes] at hi
  -- Indexes are looked for in keys, relations, what is implied and the tenancy, in this order.
  cases hkey : t.keys.find? fun key => key.name = some i.name with
  | some key =>
    have hname : key.name = some i.name := by simpa using List.find?_some hkey
    have hmem := List.mem_of_find?_eq_some hkey
    rw [hkey, Option.bind_some, keyIndex?, hname, Option.map_some, Option.some_or,
      Option.some.injEq] at hi
    rw [← hi] at hsame
    obtain ⟨hcomposite, hjoined⟩ := (Key.sortKey?_eq_partition_iff (hdistinct key hmem)).1 hsame
    exact .key hmem hcomposite hjoined
  | none =>
    have hkeys : ∀ key ∈ t.keys, key.name ≠ some i.name := by simpa using List.find?_eq_none.1 hkey
    rw [hkey, Option.bind_none, Option.none_or] at hi
    cases hend : (t.relationsOf .belongsTo).find? fun r => r.name = some i.name with
    | some r =>
      have hname : r.name = some i.name := by simpa using List.find?_some hend
      rw [hend, Option.bind_some, endIndex?, hname, Option.map_some, Option.some_or,
        Option.some.injEq] at hi
      rw [← hi] at hsame
      exact .relation hkeys hend hsame
    | none =>
      rw [hend, Option.bind_none, Option.none_or] at hi
      cases himplied : t.impliedIndexes.find? fun other => other.name = i.name with
      | some other =>
        rw [himplied, Option.some_or, Option.some.injEq] at hi
        have hnone := hunsorted i (hi ▸ List.mem_of_find?_eq_some himplied)
        rw [hnone] at hsame
        cases hsame
      | none =>
        rw [himplied, Option.none_or] at hi
        have hmem := List.mem_of_find?_eq_some hi
        rw [Option.mem_toList, Option.map_eq_some_iff] at hmem
        obtain ⟨tenancy, htenancy, hindex⟩ := hmem
        have hname : i.name = tenancy.indexName := by rw [← hindex, name_tenancyIndex]
        have hends : ∀ r ∈ t.relationsOf .belongsTo, r.name ≠ some i.name := by
          simpa using List.find?_eq_none.1 hend
        have hothers : ∀ other ∈ t.impliedIndexes, other.name ≠ i.name := by
          simpa using List.find?_eq_none.1 himplied
        rw [← hindex] at hsame
        exact .tenancy htenancy (hname ▸ hkeys) (hname ▸ hends) (hname ▸ hothers)
          (Option.some.inj hsame).symm

/-- What names one attribute twice has a key schema that does. -/
theorem DoublesAttribute.exists_schema (h : t.DoublesAttribute)
    (hnodup : (t.keys.map (·.name)).Nodup) (hdistinct : ∀ key ∈ t.keys, key.fields.Nodup) :
    t.primaryKey.sortKey? = some t.primaryKey.partition ∨
      ∃ i ∈ firstOfName t.allIndexes, i.sort = some i.partition := by
  cases h with
  | @key key hkey hcomposite hsame =>
    have hsort := (Key.sortKey?_eq_partition_iff (hdistinct key hkey)).2 ⟨hcomposite, hsame⟩
    cases hname : key.name with
    | none =>
      rw [primaryKey_eq hnodup hkey hname]
      exact Or.inl hsort
    | some name =>
      have hfirst := find?_allIndexes_of_key hnodup hkey hname
      exact Or.inr ⟨{ name, partition := key.partition, sort := key.sortKey? },
        mem_firstOfName_iff.2 hfirst, hsort⟩
  | @relation r name hkeys hend hsame =>
    have hname : r.name = some name := by simpa using List.find?_some hend
    have hnone : t.keys.find? (fun key => key.name = some name) = none := by simpa using hkeys
    refine Or.inr ⟨{ name, partition := t.foreignKey r, sort := r.sortField }, ?_, hsame⟩
    rw [mem_firstOfName_iff, find?_allIndexes, hnone, hend]
    simp [endIndex?, hname]
  | @tenancy tenancy htenancy hkeys hends himplied hsame =>
    have hnokey : t.keys.find? (fun key => key.name = some tenancy.indexName) = none := by
      simpa using hkeys
    have hnoend : (t.relationsOf .belongsTo).find? (fun r => r.name = some tenancy.indexName)
        = none := by
      simpa using hends
    have hnoimplied : t.impliedIndexes.find? (fun i => i.name = tenancy.indexName) = none := by
      simpa using himplied
    refine Or.inr ⟨t.tenancyIndex tenancy, ?_, by rw [tenancyIndex, hsame]⟩
    rw [mem_firstOfName_iff, name_tenancyIndex, find?_allIndexes, hnokey, hnoend, hnoimplied,
      htenancy]
    simp

/-- **A table names one attribute twice in just the ways of `Table.DoublesAttribute`.** -/
theorem doublesAttribute_iff (hnodup : (t.keys.map (·.name)).Nodup)
    (hdistinct : ∀ key ∈ t.keys, key.fields.Nodup)
    (hunsorted : ∀ i ∈ t.impliedIndexes, i.sort = none) :
    t.DoublesAttribute ↔ ∃ schema ∈ t.keySchemas, NamesOneTwice schema := by
  have hschemas : (∃ schema ∈ t.keySchemas, NamesOneTwice schema) ↔
      t.primaryKey.sortKey? = some t.primaryKey.partition ∨
        ∃ i ∈ firstOfName t.allIndexes, i.sort = some i.partition := by
    simp [keySchemas, namesOneTwice_keySchema]
  rw [hschemas]
  constructor
  · exact fun h => h.exists_schema hnodup hdistinct
  · rintro (hprimary | ⟨i, hi, hsame⟩)
    · rcases t.primaryKey_cases with hmem | hdefault
      · obtain ⟨hcomposite, hjoined⟩ :=
          (Key.sortKey?_eq_partition_iff (hdistinct _ hmem)).1 hprimary
        exact .key hmem hcomposite hjoined
      · rw [hdefault] at hprimary
        cases hprimary
    · exact doublesAttribute_of_index hdistinct hunsorted hi hsame

/-- No index that is implied on `t` is sorted. -/
def ImpliesUnsorted (t : Table) : Prop := ∀ i ∈ t.impliedIndexes, i.sort = none

theorem ImpliesUnsorted.acceptRelation {target : Table} (h : target.ImpliesUnsorted) (owner : Table)
    (r : Relation) : (target.acceptRelation owner r).1.ImpliesUnsorted := by
  refine acceptRelation_keeps (fun name => ?_) ?_ fun t name partition ht => ?_
  · unfold adoptForeignKey
    split <;> exact h
  · intro i hi
    rw [impliedIndexes_addImpliedForeignKey] at hi
    exact h i hi
  · unfold addImpliedIndex
    split
    · exact ht
    · refine List.forall_mem_append.2 ⟨ht, fun i hi => ?_⟩
      rw [List.mem_singleton.1 hi]

end Table

namespace Catalog

theorem survives_impliesUnsorted :
    Survives (fun c => ∀ t ∈ c.tables, t.ImpliesUnsorted) fun _ => True where
  relation _ _ _ := trivial
  kind h htable _ _ := forall_putTable h fun i hi => h _ htable i hi
  target h htable _ _ := forall_putTable h fun i hi => h _ htable i hi
  foreignKey h htable _ _ := forall_putTable h fun i hi => h _ htable i hi
  accept h htarget _ _ := forall_putTable h ((h _ htarget).acceptRelation _ _)

/-- No directive asks for an implied index; those that relations imply are not sorted. -/
theorem impliesUnsorted_of_gather {document : Sdl.Document} {schemaName : String}
    {scope : Sdl.Scope} {c : Catalog}
    (h : (gather { document, schemaName, scope }).outcome = .ok c) :
    ∀ t ∈ c.tables, t.ImpliesUnsorted := by
  obtain ⟨before, hbefore, -, rfl⟩ := exists_collected_of_gather h
  have hnone : ∀ t ∈ before.tables, t.impliedIndexes = [] := by
    refine forall_tables_of_collected (P := fun t => t.impliedIndexes = [])
      (fun _ => rfl) ?_ hbefore
    intro site t t' hgains hnone
    cases hgains with
    | unique _ =>
      unfold Table.addUnique
      split <;> exact hnone
    | _ => exact hnone
  refine survives_impliesUnsorted.classify fun t ht i hi => ?_
  rw [hnone t ht] at hi
  cases hi

end Catalog

/-! ### Compiled documents -/

instance (schema : Tree) : Decidable (NamesOneTwice schema) :=
  inferInstanceAs (Decidable (∃ name ∈ attributesAs "HASH" schema,
    name ∈ attributesAs "RANGE" schema))

/-- **Every key schema that is emitted has one attribute to hash and at most one to range over. They
are the same attribute in just those tables that name one twice (`Table.DoublesAttribute`)**, as
long as the fields of each key differ. -/
theorem keySchemas_of_compileDocument {schemaName : String} {scope : Sdl.Scope}
    {document : Sdl.Document} {compilation : Compilation}
    (h : (compileDocument schemaName scope document).outcome = .ok compilation)
    (hdistinct : ∀ t ∈ compilation.catalog.tables, ∀ key ∈ t.keys, key.fields.Nodup) :
    (∀ f ∈ compilation.fragments, ∀ placed ∈ f.keySchemas, IsKeySchema placed.2 ∧
      (NamesOneTwice placed.2 → ∃ t ∈ compilation.catalog.tables,
        placed.1 = tableLocation t.name ∧ t.DoublesAttribute)) ∧
    ∀ t ∈ compilation.catalog.tables, t.DoublesAttribute →
      ∃ f ∈ compilation.fragments, ∃ placed ∈ f.keySchemas,
        placed.1 = tableLocation t.name ∧ NamesOneTwice placed.2 := by
  obtain ⟨hgather, hemit⟩ := of_compileDocument h
  have hkeyed : compilation.catalog.IsKeyed := by
    rw [Catalog.after_of_gather hgather]
    exact (Catalog.isKeyed_empty document schemaName scope).after _
  have hends : ∀ t ∈ compilation.catalog.tables, t.EndsAreNamed := by
    rw [Catalog.outcome_gather] at hgather
    obtain ⟨before, hbefore, hsame⟩ := Outcome.of_map_eq_ok hgather
    intro t ht
    rw [← hsame] at ht
    exact Catalog.endsAreNamed_of_classify (Catalog.rooted_of_collected hbefore).1.tableNames ht
  have hdoubles : ∀ t ∈ compilation.catalog.tables,
      (t.DoublesAttribute ↔ ∃ schema ∈ t.keySchemas, NamesOneTwice schema) := fun t ht =>
    Table.doublesAttribute_iff (hkeyed.keyNames t ht) (hdistinct t ht)
      (Catalog.impliesUnsorted_of_gather hgather t ht)
  have hmem : ∀ placed, (∃ f ∈ compilation.fragments, placed ∈ f.keySchemas) ↔
      ∃ t ∈ compilation.catalog.tables, ∃ schema ∈ t.keySchemas,
        (tableLocation t.name, schema) = placed := by
    intro placed
    rw [← List.mem_flatMap, Catalog.flatMap_keySchemas_emit hends hemit]
    simp only [List.mem_flatMap, List.mem_map]
  constructor
  · intro f hf placed hplaced
    obtain ⟨t, ht, schema, hschema, rfl⟩ := (hmem placed).1 ⟨f, hf, hplaced⟩
    constructor
    · rcases List.mem_cons.1 hschema with rfl | hindex
      · exact isKeySchema_keySchema _ _
      · obtain ⟨i, -, rfl⟩ := List.mem_map.1 hindex
        exact isKeySchema_keySchema _ _
    · exact fun htwice => ⟨t, ht, rfl, (hdoubles t ht).2 ⟨schema, hschema, htwice⟩⟩
  · intro t ht hdouble
    obtain ⟨schema, hschema, htwice⟩ := (hdoubles t ht).1 hdouble
    obtain ⟨f, hf, hplaced⟩ := (hmem _).2 ⟨t, ht, schema, hschema, rfl⟩
    exact ⟨f, hf, _, hplaced, rfl, htwice⟩

/-- Notes of several tenants, by author and by day and time. -/
def sharedNotes : String :=
  "type Note @model @multiTenancy @key(fields: [\"author\", \"day\", \"time\"], name: \"byAuthor\") \x7b
    id: ID! author: String day: String time: String \x7d"

theorem sharedNotes_apart : ∃ document compilation,
    Sdl.Document.parse sharedNotes = .ok document ∧
      (compileDocument "schema.graphql" none document).outcome = .ok compilation ∧
      ∀ f ∈ compilation.fragments, ∀ placed ∈ f.keySchemas,
        IsKeySchema placed.2 ∧ ¬ NamesOneTwice placed.2 := by
  have hfacts : Outcome.Holds (Sdl.Document.parse sharedNotes) fun document =>
      Outcome.Holds (compileDocument "schema.graphql" none document).outcome fun compilation =>
        (∀ t ∈ compilation.catalog.tables, ∀ key ∈ t.keys, key.fields.Nodup) ∧
        ∀ t ∈ compilation.catalog.tables,
          (∀ key ∈ t.keys, key.partition ≠ "#".intercalate key.sortFields) ∧
          (∀ r ∈ t.relations, r.sortField ≠ some (t.foreignKey r)) ∧
          ∀ tenancy ∈ t.tenancy.toList, tenancy.field ≠ t.primaryKey.partition := by
    set_option maxRecDepth 2000 in refine Sdl.Document.holds_parse rfl ?_
    decide +kernel
  obtain ⟨document, hparse, compilation, hcompile, hdistinct, hapart⟩ := hfacts
  obtain ⟨hschemas, -⟩ := keySchemas_of_compileDocument hcompile hdistinct
  refine ⟨document, compilation, hparse, hcompile, fun f hf placed hplaced => ?_⟩
  obtain ⟨hschema, htwice⟩ := hschemas f hf placed hplaced
  refine ⟨hschema, fun hdoubled => ?_⟩
  obtain ⟨t, ht, -, hdouble⟩ := htwice hdoubled
  obtain ⟨hkeys, hrelations, htenants⟩ := hapart t ht
  cases hdouble with
  | key hkey hcomposite hsame => exact hkeys _ hkey hsame
  | relation _ hend hsame =>
    exact hrelations _ (List.mem_filter.1 (List.mem_of_find?_eq_some hend)).1 hsame
  | tenancy htenancy _ _ _ hsame => exact htenants _ (by simp [htenancy]) hsame

/-- Notes of tenants that are kept in the primary key. -/
def tenantNotes : String :=
  "type Note @model @multiTenancy(field: \"id\") \x7b id: ID! day: String \x7d"

/-- The index of the tenants is to be hashed and ranged over by one attribute. -/
theorem tenantNotes_doubled : ∃ document compilation,
    Sdl.Document.parse tenantNotes = .ok document ∧
      (compileDocument "schema.graphql" none document).outcome = .ok compilation ∧
      (∀ t ∈ compilation.catalog.tables, ∀ key ∈ t.keys, key.fields.Nodup) ∧
      ∃ f ∈ compilation.fragments, ∃ placed ∈ f.keySchemas, NamesOneTwice placed.2 := by
  have hfacts : Outcome.Holds (Sdl.Document.parse tenantNotes) fun document =>
      Outcome.Holds (compileDocument "schema.graphql" none document).outcome fun compilation =>
        (∀ t ∈ compilation.catalog.tables, ∀ key ∈ t.keys, key.fields.Nodup) ∧
        ∃ f ∈ compilation.fragments, ∃ placed ∈ f.keySchemas, NamesOneTwice placed.2 := by
    set_option maxRecDepth 2000 in refine Sdl.Document.holds_parse rfl ?_
    decide +kernel
  obtain ⟨document, hparse, compilation, hcompile, hdistinct, hdoubled⟩ := hfacts
  exact ⟨document, compilation, hparse, hcompile, hdistinct, hdoubled⟩

end SchemaLoom
