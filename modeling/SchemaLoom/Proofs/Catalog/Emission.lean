/-
What is emitted for the published schema, and of what kinds fragments are.

Of all that a compilation emits, only some fragments are addressed to the published schema: edits
of the types of tables and of relations to many, edits of fields that are bound, and the edits
that strip directives.  If there are any, the document as it was written comes first.

A generated document may have the place of the published schema, too, and then stands where its
table does.  As long as none has, there is nothing but edits behind the document itself
(`drafts_of_not_mem`).  `addressedTo_emit_eq` gives all that is addressed there in its order,
computed from the catalog alone.

The second half sorts fragments by kind.  `Emits` has a constructor for each kind, and every
fragment that is emitted is of one (`emits_of_emit`); the documents among them are `Generates`,
and each of those is emitted in fact (`mem_of_generates`).
-/
import SchemaLoom.Artifact.Assembly
import SchemaLoom.Catalog.Emission
import SchemaLoom.Outcome
import SchemaLoom.Proofs.Lists

namespace SchemaLoom

open Artifact Surface

/-! ### Fragments of a location

What is addressed to a location distributes over all ways in which fragments are put together.
-/

section Location

variable {location : String}

@[simp] theorem addressedTo_nil : addressedTo location [] = [] := rfl

@[simp] theorem addressedTo_append (fs gs : List Fragment) :
    addressedTo location (fs ++ gs) = addressedTo location fs ++ addressedTo location gs :=
  List.filter_append ..

theorem addressedTo_cons (f : Fragment) (fs : List Fragment) :
    addressedTo location (f :: fs)
      = (if f.location = location then [f] else []) ++ addressedTo location fs := by
  by_cases hhere : f.location = location
  · simp [addressedTo, hhere]
  · simp [addressedTo, hhere]

theorem addressedTo_eq_nil {fs : List Fragment} (h : ∀ f ∈ fs, f.location ≠ location) :
    addressedTo location fs = [] := by
  refine List.filter_eq_nil_iff.2 fun f hf => ?_
  simpa using h f hf

theorem addressedTo_flatten (parts : List (List Fragment)) :
    addressedTo location parts.flatten = parts.flatMap (addressedTo location) := by
  rw [addressedTo, List.filter_flatten, List.flatMap_def]
  rfl

theorem addressedTo_flatMap {α : Type} (f : α → List Fragment) (as : List α) :
    addressedTo location (as.flatMap f) = as.flatMap fun a => addressedTo location (f a) := by
  rw [addressedTo, List.filter_flatMap]
  rfl

theorem any_location_iff (location : String) (fs : List Fragment) :
    (fs.any fun f => f.location = location) = true ↔ addressedTo location fs ≠ [] := by
  rw [addressedTo, Ne, List.filter_eq_nil_iff, List.any_eq_true]
  simp

/-- Edits of a document are addressed to it. -/
theorem addressedTo_ofEdit (edits : List Sdl.Edit) :
    addressedTo location (edits.map (Fragment.ofEdit location)) =
      edits.map (Fragment.ofEdit location) :=
  List.filter_eq_self.2 fun f hf => by
    obtain ⟨e, -, rfl⟩ := List.mem_map.1 hf
    simp [Fragment.ofEdit]

end Location

namespace Catalog

/-! ### Generated documents -/

/-- Where the documents are placed that one part of a table gives rise to. -/
def partDocuments (t : Table) : TablePart → List String
  | .operations => [schemaLocation t.name]
  | .query key => [schemaLocation (t.name ++ "." ++ queryName key)]
  | _ => []

/-- Where the generated documents of a catalog are placed. -/
def documentLocations (c : Catalog) : List String :=
  c.tables.flatMap (fun t => t.parts.flatMap (partDocuments t))
    ++ if c.tables.isEmpty then [] else [sharedLocation]

/-! ### Edits of the published schema

The edits are listed in the order in which they are emitted, those of each table together, and
apart from all other fragments.
-/

/-- The edits of the published type of a table. -/
def ownEdits (t : Table) : List Sdl.Edit :=
  let directives := Access.annotations (Table.providersOf t.rules)
  (if directives.isEmpty then [] else [.addDirectives t.name none directives])
    ++ ((t.tenancy.filter fun tenancy => (t.field? tenancy.field).isNone).map fun tenancy =>
      Sdl.Edit.addField t.name (Entry.plain tenancy.field "String").render).toList

/-- The edits that one part of a table gives rise to. -/
def partEdits (t : Table) : TablePart → List Sdl.Edit
  | .operations => ownEdits t
  | .relation r => if r.toMany then [.replaceField t.name r.field (listedField r).render] else []
  | _ => []

/-- The edits that a binding of a field gives rise to. -/
def bindingEdits (c : Catalog) : Binding → List Sdl.Edit
  | .function type field _ =>
    let directives := Access.annotations ((c.rulesOfField type field).map (·.provider))
    if directives.isEmpty then [] else [.addDirectives type (some field) directives]
  | .foreignInput type field foreignKey isCondition =>
    [foreignInputEdit type field foreignKey isCondition]

/-- The edits of the published schema. -/
def publishedEdits (c : Catalog) : List Sdl.Edit :=
  c.tables.flatMap (fun t => t.parts.flatMap (partEdits t)) ++ c.bindings.flatMap (bindingEdits c)
    ++ stripEdits c

/-! ### Parts

A table comes to fragments part by part.  Most of them are templates and storage, whose locations
begin with another letter than that of schema documents; what is left of a part are its document
and its edits (`partDrafts`).
-/

theorem typeEdits_eq (c : Catalog) (t : Table) :
    typeEdits c t = (ownEdits t).map (Fragment.ofEdit c.publishedLocation) := by
  unfold typeEdits ownEdits
  dsimp only
  by_cases hnone : (Access.annotations (Table.providersOf t.rules)).isEmpty = true
  · rw [if_pos hnone, if_pos hnone]
    cases t.tenancy.filter fun tenancy => (t.field? tenancy.field).isNone <;> rfl
  · rw [if_neg hnone, if_neg hnone]
    cases t.tenancy.filter fun tenancy => (t.field? tenancy.field).isNone <;> rfl

/-- The location of `f` begins as those of resolvers and of storage do, so it is outside of the
folder of schema documents. -/
def IsAside (f : Fragment) : Prop :=
  f.location.toList.head? = some 'r' ∨ f.location.toList.head? = some 'm'

/-- Texts that begin differently differ. -/
theorem IsAside.ne_schema {f : Fragment} (h : IsAside f) (name : String) :
    f.location ≠ "schema/" ++ name := by
  intro hsame
  have hhead : ("schema/" ++ name).toList.head? = some 's' := head_append (by decide) _
  rw [IsAside, hsame, hhead] at h
  rcases h with h | h <;> exact absurd h (by decide)

theorem addressedTo_of_aside {c : Catalog} {fs : List Fragment} (h : ∀ f ∈ fs, IsAside f) :
    addressedTo c.publishedLocation fs = [] :=
  addressedTo_eq_nil fun f hf => (h f hf).ne_schema c.schemaName

theorem aside_storage {t : Table} {fs : List Fragment} (h : storageFragments t = .ok fs) :
    ∀ f ∈ fs, IsAside f := by
  have hplace : (tableLocation t.name).toList.head? = some 'r' :=
    head_append (head_append (by decide) _) _
  unfold storageFragments at h
  obtain ⟨base, -, h⟩ := Outcome.of_bind_eq_ok h
  obtain ⟨others, -, h⟩ := Outcome.of_bind_eq_ok h
  obtain ⟨definitions, hdefinitions, h⟩ := Outcome.of_bind_eq_ok h
  obtain ⟨indexes, -, h⟩ := Outcome.of_bind_eq_ok h
  cases h
  intro f hf
  simp only [List.cons_append, List.mem_cons, List.mem_append, List.mem_map] at hf
  rcases hf with rfl | hf | ⟨i, -, rfl⟩
  · exact Or.inl hplace
  · obtain ⟨name, -, hname⟩ := Outcome.exists_of_mem_mapM hdefinitions hf
    obtain ⟨definition, -, hname⟩ := Outcome.of_bind_eq_ok hname
    cases hname
    exact Or.inl hplace
  · exact Or.inl hplace

theorem aside_templatePair {name : String} {request response : Resolver.Template} {kept : Bool} :
    ∀ f ∈ templatePair name request response kept, IsAside f := by
  intro f hf
  simp only [templatePair, List.mem_cons, List.not_mem_nil, or_false] at hf
  rcases hf with rfl | rfl <;>
    exact Or.inr (head_append (head_append (head_append (head_append (by decide) _) _) _) _)

theorem aside_fieldTemplates {type field : String} {request response : Resolver.Template} :
    ∀ f ∈ fieldTemplates type field request response, IsAside f :=
  aside_templatePair

theorem aside_binding {type field : String} {tree : Tree} :
    IsAside (Fragment.ofTree (bindingLocation type field) tree) :=
  Or.inl (head_append (head_append (head_append (head_append (by decide) _) _) _) _)

theorem aside_operationTemplates {t : Table} {fs : List Fragment}
    (h : operationTemplates t = .ok fs) : ∀ f ∈ fs, IsAside f := by
  unfold operationTemplates at h
  obtain ⟨isGenerated, -, h⟩ := Outcome.of_bind_eq_ok h
  cases h
  intro f hf
  rw [List.mem_append, List.mem_append] at hf
  rcases hf with (hf | hf) | hf
  · exact aside_fieldTemplates f hf
  · exact aside_fieldTemplates f hf
  · split at hf
    · simp only [directMutations, List.mem_append] at hf
      rcases hf with (hf | hf) | hf <;> exact aside_fieldTemplates f hf
    · simp only [steppedMutations, List.mem_append, List.mem_flatMap, List.mem_singleton] at hf
      rcases hf with ((((hf | ⟨action, -, hf⟩) | hf) | hf) | hf) | rfl
      · exact aside_fieldTemplates f hf
      · exact aside_fieldTemplates f hf
      · exact aside_templatePair f hf
      · exact aside_templatePair f hf
      · exact aside_templatePair f hf
      · exact Or.inl (head_append (head_append (by decide) _) _)

/-- The document that one part of a table gives rise to. -/
def partTexts (c : Catalog) (t : Table) : TablePart → List Fragment
  | .operations =>
    (operationSchema c t).toOption.toList.map (Fragment.ofText (schemaLocation t.name))
  | .query key =>
    (querySchema t key).toOption.toList.map
      (Fragment.ofText (schemaLocation (t.name ++ "." ++ queryName key)))
  | _ => []

/-- The document of what is shared. -/
def sharedTexts (c : Catalog) : List Fragment :=
  if c.tables.isEmpty then []
  else (sharedSchema c).toOption.toList.map (Fragment.ofText sharedLocation)

/-- What one part of a table has for the published schema: its document, if that is placed there,
and its edits. -/
def partDrafts (c : Catalog) (t : Table) (part : TablePart) : List Fragment :=
  addressedTo c.publishedLocation (partTexts c t part)
    ++ (partEdits t part).map (Fragment.ofEdit c.publishedLocation)

/-- What there is for the published schema behind the document itself. -/
def drafts (c : Catalog) : List Fragment :=
  c.tables.flatMap (fun t => t.parts.flatMap (c.partDrafts t))
    ++ (c.bindings.flatMap (bindingEdits c)).map (Fragment.ofEdit c.publishedLocation)
    ++ addressedTo c.publishedLocation c.sharedTexts ++ stripFragments c

/-- **What one part of a table has for the published schema** is what `partDrafts` lists for it. -/
theorem addressedTo_part {c : Catalog} {t : Table} {part : TablePart} {fs : List Fragment}
    (h : (c.partFragments t part).outcome = .ok fs) :
    addressedTo c.publishedLocation fs = c.partDrafts t part := by
  cases part with
  | storage => exact addressedTo_of_aside (aside_storage h)
  | operations =>
    simp only [partFragments, operationFragments, Report.outcome_bind, Report.outcome_lift] at h
    obtain ⟨schema, hschema, h⟩ := Outcome.of_bind_eq_ok h
    obtain ⟨templates, htemplates, h⟩ := Outcome.of_bind_eq_ok h
    cases h
    have hbindings : IsAside (Fragment.ofTree (bindingsLocation t.name)
        (.list (operationBindings t))) := Or.inl (head_append (head_append (by decide) _) _)
    have haside : addressedTo c.publishedLocation
        (Fragment.ofTree (bindingsLocation t.name) (.list (operationBindings t)) :: templates) =
          [] :=
      addressedTo_of_aside fun f hf => (List.mem_cons.1 hf).elim (fun heq => heq ▸ hbindings)
        (aside_operationTemplates htemplates f)
    have htexts : partTexts c t .operations
        = [Fragment.ofText (schemaLocation t.name) schema] := by
      rw [partTexts, hschema]
      rfl
    -- Bindings and templates are never addressed to the published schema.
    rw [partDrafts, htexts, List.cons_append, addressedTo_cons, addressedTo_append, haside,
      typeEdits_eq, addressedTo_ofEdit, List.append_nil, addressedTo_cons, addressedTo_nil,
      List.append_nil]
    rfl
  | query key =>
    simp only [partFragments, Report.outcome_lift, queryFragments] at h
    obtain ⟨schema, hschema, h⟩ := Outcome.of_bind_eq_ok h
    cases h
    have htexts : partTexts c t (.query key)
        = [Fragment.ofText (schemaLocation (t.name ++ "." ++ queryName key)) schema] := by
      rw [partTexts, hschema]
      rfl
    have haside : addressedTo c.publishedLocation
        (Fragment.ofTree (bindingLocation t.name (queryName key))
          (.list [binding t.name "Query" (queryName key) []])
          :: fieldTemplates "Query" (queryName key) (Resolver.keyQueryRequest key)
            (queryResponse t)) = [] :=
      addressedTo_of_aside fun f hf => (List.mem_cons.1 hf).elim (fun heq => heq ▸ aside_binding)
        (aside_fieldTemplates f)
    rw [partDrafts, htexts, List.cons_append, addressedTo_cons, List.cons_append, List.nil_append,
      haside, addressedTo_cons, addressedTo_nil, List.append_nil]
    exact (List.append_nil _).symm
  | relation r =>
    simp only [partFragments, Report.outcome_pure, Except.ok.injEq] at h
    subst h
    have haside : addressedTo c.publishedLocation
        (Fragment.ofTree (bindingLocation t.name r.field)
          (.list [binding r.target t.name r.field []])
          :: templatePair (t.name ++ "." ++ r.field) (relationRequest t r) (relationResponse t r)
            (!r.isCustom)) = [] :=
      addressedTo_of_aside fun f hf => (List.mem_cons.1 hf).elim (fun heq => heq ▸ aside_binding)
        (aside_templatePair f)
    have htexts : partTexts c t (.relation r) = [] := rfl
    rw [relationFragments, addressedTo_append, haside, List.nil_append, partDrafts, htexts,
      addressedTo_nil, List.nil_append, partEdits]
    split
    · exact addressedTo_ofEdit [_]
    · rfl

theorem addressedTo_table {c : Catalog} {t : Table} {fs : List Fragment}
    (h : (c.tableFragments t).outcome = .ok fs) :
    addressedTo c.publishedLocation fs = t.parts.flatMap (c.partDrafts t) := by
  rw [tableFragments, Report.outcome_map, Report.outcome_mapM] at h
  obtain ⟨parts, hparts, h⟩ := Outcome.of_bind_eq_ok h
  cases h
  rw [addressedTo_flatten, Outcome.flatMap_of_mapM_eq_ok
    (fun part _ fs hfragments => addressedTo_part hfragments) hparts]

theorem addressedTo_binding (c : Catalog) (b : Binding) :
    addressedTo c.publishedLocation (bindingFragments c b)
      = (bindingEdits c b).map (Fragment.ofEdit c.publishedLocation) := by
  cases b with
  | function type field source =>
    have haside : addressedTo c.publishedLocation
        (Fragment.ofTree (bindingLocation type field)
          (.list [steppedBinding source type field [source]])
          :: fieldTemplates type field (functionTemplate c type field)
            Resolver.functionResponse) = [] :=
      addressedTo_of_aside fun f hf => (List.mem_cons.1 hf).elim (fun heq => heq ▸ aside_binding)
        (aside_fieldTemplates f)
    rw [bindingFragments, functionFragments, addressedTo_append, haside, List.nil_append,
      bindingEdits]
    split
    · rfl
    · exact addressedTo_ofEdit [_]
  | foreignInput type field foreignKey isCondition => exact addressedTo_ofEdit [_]

theorem addressedTo_shared {c : Catalog} {fs : List Fragment} (h : sharedFragments c = .ok fs) :
    fs = c.sharedTexts := by
  unfold sharedFragments at h
  unfold sharedTexts
  split at h
  next hnone =>
    cases h
    rw [if_pos hnone]
  next hsome =>
    obtain ⟨schema, hschema, rfl⟩ := Outcome.of_map_eq_ok h
    rw [if_neg hsome, hschema]
    rfl

/-- **All that is emitted for the published schema, in its order**: `Catalog.seed`, which is the
document itself, if there is anything else, and then what tables, bindings, what is shared and
stripping have for it. -/
theorem addressedTo_emit_eq {c : Catalog} {fs : List Fragment} (h : c.emit.outcome = .ok fs) :
    addressedTo c.publishedLocation fs = if c.drafts = [] then [] else c.seed :: c.drafts := by
  simp only [emit, Report.outcome_bind, Report.outcome_mapM, Report.outcome_lift] at h
  obtain ⟨tables, htables, h⟩ := Outcome.of_bind_eq_ok h
  obtain ⟨shared, hshared, h⟩ := Outcome.of_bind_eq_ok h
  have hall : addressedTo c.publishedLocation
      (tables.flatten ++ c.bindings.flatMap (bindingFragments c) ++ shared ++ stripFragments c)
        = c.drafts := by
    have hbindings : (fun b => addressedTo c.publishedLocation (bindingFragments c b))
        = fun b => (bindingEdits c b).map (Fragment.ofEdit c.publishedLocation) :=
      funext fun b => addressedTo_binding c b
    have hstrip : addressedTo c.publishedLocation (stripFragments c) = stripFragments c :=
      addressedTo_ofEdit _
    rw [addressedTo_append, addressedTo_append, addressedTo_append, addressedTo_flatten,
      Outcome.flatMap_of_mapM_eq_ok (fun t _ fs hfragments => addressedTo_table hfragments) htables,
      addressedTo_flatMap, hbindings, addressedTo_shared hshared, hstrip, drafts, List.map_flatMap]
  have hany := any_location_iff c.publishedLocation
    (tables.flatten ++ c.bindings.flatMap (bindingFragments c) ++ shared ++ stripFragments c)
  rw [hall] at hany
  by_cases hnone : c.drafts = []
  · rw [if_neg (fun hsome => hany.1 hsome hnone)] at h
    cases h
    rw [if_pos hnone, hall, hnone]
  · rw [if_pos (hany.2 hnone)] at h
    cases h
    rw [if_neg hnone, addressedTo_cons, hall]
    simp [seed, Fragment.ofText]

/-- Texts that are placed elsewhere are not drafted into the published schema. -/
theorem partDrafts_of_not_mem {c : Catalog} {t : Table} {part : TablePart}
    (hplace : c.publishedLocation ∉ partDocuments t part) :
    c.partDrafts t part = (partEdits t part).map (Fragment.ofEdit c.publishedLocation) := by
  have hnone : addressedTo c.publishedLocation (partTexts c t part) = [] := by
    refine addressedTo_eq_nil fun f hf hhere => hplace ?_
    rw [← hhere]
    cases part with
    | operations =>
      obtain ⟨text, -, rfl⟩ := List.mem_map.1 hf
      exact List.mem_singleton_self _
    | query key =>
      obtain ⟨text, -, rfl⟩ := List.mem_map.1 hf
      exact List.mem_singleton_self _
    | storage => cases hf
    | relation r => cases hf
  rw [partDrafts, hnone, List.nil_append]

/-- **If no generated document is placed there, only edits are drafted into the published
schema.** -/
theorem drafts_of_not_mem {c : Catalog} (hplace : c.publishedLocation ∉ c.documentLocations) :
    c.drafts = c.publishedEdits.map (Fragment.ofEdit c.publishedLocation) := by
  simp only [documentLocations, List.mem_append, not_or, List.mem_flatMap, not_exists,
    not_and] at hplace
  have htables : c.tables.flatMap (fun t => t.parts.flatMap (c.partDrafts t))
      = c.tables.flatMap fun t => t.parts.flatMap fun part =>
        (partEdits t part).map (Fragment.ofEdit c.publishedLocation) := by
    simp only [List.flatMap_def]
    refine congrArg List.flatten (List.map_congr_left fun t ht => congrArg List.flatten ?_)
    exact List.map_congr_left fun part hpart => partDrafts_of_not_mem (hplace.1 t ht part hpart)
  have hshared : addressedTo c.publishedLocation c.sharedTexts = [] := by
    refine addressedTo_eq_nil fun f hf hhere => hplace.2 ?_
    unfold sharedTexts at hf
    split at hf
    · cases hf
    next hsome =>
      obtain ⟨text, -, rfl⟩ := List.mem_map.1 hf
      rw [if_neg hsome, ← hhere]
      exact List.mem_singleton_self _
  rw [drafts, htables, hshared, List.append_nil, stripFragments, publishedEdits]
  simp only [List.map_append, List.map_flatMap]

/-- All that is emitted for the published schema are its edits, behind the document itself, if no
generated document is placed there. -/
theorem addressedTo_emit {c : Catalog} {fs : List Fragment}
    (hplace : c.publishedLocation ∉ c.documentLocations) (h : c.emit.outcome = .ok fs) :
    addressedTo c.publishedLocation fs
      = if c.publishedEdits = [] then []
        else c.seed :: c.publishedEdits.map (Fragment.ofEdit c.publishedLocation) := by
  rw [addressedTo_emit_eq h, drafts_of_not_mem hplace]
  simp only [List.map_eq_nil_iff]

/-! ### Kinds of fragments

An inductive relation says of what kind a fragment is, and with which table, key or relation it
was made.  Later modules take fragments apart by its cases and no longer run the emission.
-/

/-- The generated documents of a catalog, by location. -/
inductive Generates (c : Catalog) : String → List Declaration → Prop where
  | operations {t : Table} {ds : List Declaration} (htable : t ∈ c.tables)
    (hdeclarations : operationDeclarations c t = .ok ds) : Generates c (schemaLocation t.name) ds
  | query {t : Table} {key : Key} {ds : List Declaration} (htable : t ∈ c.tables)
    (hkey : key ∈ t.queryKeys) (hdeclarations : queryDeclarations t key = .ok ds) :
    Generates c (schemaLocation (t.name ++ "." ++ queryName key)) ds
  | shared {ds : List Declaration} (hsome : c.tables ≠ [])
    (hdeclarations : sharedDeclarations c = .ok ds) : Generates c sharedLocation ds

/-- The fields that are resolved by templates. -/
inductive Resolves (c : Catalog) : String → String → Prop where
  | get {t : Table} (htable : t ∈ c.tables) : Resolves c "Query" (getName t)
  | list {t : Table} (htable : t ∈ c.tables) : Resolves c "Query" (listName t)
  | mutation {t : Table} (htable : t ∈ c.tables) (action : Access.Action) :
    Resolves c "Mutation" (mutationName t action)
  | query {t : Table} {key : Key} (htable : t ∈ c.tables) (hkey : key ∈ t.queryKeys) :
    Resolves c "Query" (queryName key)
  | relation {t : Table} {r : Relation} (htable : t ∈ c.tables) (hrelation : r ∈ t.relations) :
    Resolves c t.name r.field
  | function {type field source : String}
    (hbinding : Binding.function type field source ∈ c.bindings) : Resolves c type field

/-- The fragments that a catalog emits. -/
inductive Emits (c : Catalog) : Fragment → Prop where
  | seed : Emits c c.seed
  | edit {e : Sdl.Edit} (he : e ∈ c.publishedEdits) : Emits c (.ofEdit c.publishedLocation e)
  | document {location : String} {ds : List Declaration} (hdocument : c.Generates location ds) :
    Emits c (.ofText location (renderDocument ds))
  | template {type field phase text : String} {replaceable : Bool}
    (hfield : c.Resolves type field) (hphase : phase ∈ ["request", "response"]) :
    Emits c { Fragment.ofText
      (templateLocation (type ++ "." ++ field) phase) text with replaceable }
  | step {t : Table} {name phase text : String} (htable : t ∈ c.tables)
    (hname : name ∈ [readStep t, writeStep t .update, writeStep t .delete])
    (hphase : phase ∈ ["request", "response"]) :
    Emits c (Fragment.ofText (templateLocation name phase) text)
  | table {t : Table} {tree : Tree} (htable : t ∈ c.tables)
    (htree : tableDeclaration t = .ok tree) : Emits c (.ofTree (tableLocation t.name) tree)
  | tableEdit {t : Table} {patch : TreePatch} (htable : t ∈ c.tables) :
    Emits c (.ofPatch (tableLocation t.name) patch)
  | bindings {t : Table} {items : List Tree} (htable : t ∈ c.tables) :
    Emits c (.ofTree (bindingsLocation t.name) (.list items))
  | steps {t : Table} {items : List Tree} (htable : t ∈ c.tables) :
    Emits c (.ofTree (stepsLocation t.name) (.list items))
  | binding {type field : String} {items : List Tree} (hfield : c.Resolves type field) :
    Emits c (.ofTree (bindingLocation type field) (.list items))
  | queryBinding {t : Table} {key : Key} {items : List Tree} (htable : t ∈ c.tables)
    (hkey : key ∈ t.queryKeys) :
    Emits c (.ofTree (bindingLocation t.name (queryName key)) (.list items))

variable {c : Catalog} {t : Table}

theorem emits_fieldTemplates {type field : String} (hfield : c.Resolves type field)
    {request response : Resolver.Template} :
    ∀ f ∈ fieldTemplates type field request response, c.Emits f := by
  intro f hf
  simp only [fieldTemplates, templatePair, List.mem_cons, List.not_mem_nil, or_false] at hf
  rcases hf with rfl | rfl
  · exact .template hfield (by simp)
  · exact .template hfield (by simp)

theorem emits_step {name : String} (htable : t ∈ c.tables)
    (hname : name ∈ [readStep t, writeStep t .update, writeStep t .delete])
    {request response : Resolver.Template} :
    ∀ f ∈ templatePair name request response, c.Emits f := by
  intro f hf
  simp only [templatePair, List.mem_cons, List.not_mem_nil, or_false] at hf
  rcases hf with rfl | rfl
  · exact .step htable hname (by simp)
  · exact .step htable hname (by simp)

theorem emits_storage (htable : t ∈ c.tables) {fs : List Fragment}
    (h : storageFragments t = .ok fs) : ∀ f ∈ fs, c.Emits f := by
  unfold storageFragments at h
  obtain ⟨base, hbase, h⟩ := Outcome.of_bind_eq_ok h
  obtain ⟨others, -, h⟩ := Outcome.of_bind_eq_ok h
  obtain ⟨definitions, hdefinitions, h⟩ := Outcome.of_bind_eq_ok h
  obtain ⟨indexes, -, h⟩ := Outcome.of_bind_eq_ok h
  cases h
  intro f hf
  simp only [List.cons_append, List.mem_cons, List.mem_append, List.mem_map] at hf
  rcases hf with rfl | hf | ⟨i, -, rfl⟩
  · exact .table htable hbase
  · obtain ⟨name, -, hname⟩ := Outcome.exists_of_mem_mapM hdefinitions hf
    obtain ⟨definition, -, hname⟩ := Outcome.of_bind_eq_ok hname
    cases hname
    exact .tableEdit htable
  · exact .tableEdit htable

theorem emits_operationTemplates (htable : t ∈ c.tables) {fs : List Fragment}
    (h : operationTemplates t = .ok fs) : ∀ f ∈ fs, c.Emits f := by
  unfold operationTemplates at h
  obtain ⟨isGenerated, -, h⟩ := Outcome.of_bind_eq_ok h
  cases h
  intro f hf
  rw [List.mem_append, List.mem_append] at hf
  rcases hf with (hf | hf) | hf
  · exact emits_fieldTemplates (.get htable) f hf
  · exact emits_fieldTemplates (.list htable) f hf
  · split at hf
    · simp only [directMutations, List.mem_append] at hf
      rcases hf with (hf | hf) | hf <;> exact emits_fieldTemplates (.mutation htable _) f hf
    · simp only [steppedMutations, List.mem_append, List.mem_flatMap, List.mem_singleton] at hf
      rcases hf with ((((hf | ⟨action, -, hf⟩) | hf) | hf) | hf) | rfl
      · exact emits_fieldTemplates (.mutation htable _) f hf
      · exact emits_fieldTemplates (.mutation htable _) f hf
      · exact emits_step htable (by simp) f hf
      · exact emits_step htable (by simp) f hf
      · exact emits_step htable (by simp) f hf
      · exact .steps htable

theorem emits_part (htable : t ∈ c.tables) {part : TablePart} (hpart : part ∈ t.parts)
    {fs : List Fragment} (hedits : ∀ e ∈ partEdits t part, e ∈ c.publishedEdits)
    (h : (c.partFragments t part).outcome = .ok fs) : ∀ f ∈ fs, c.Emits f := by
  cases part with
  | storage => exact emits_storage htable h
  | operations =>
    simp only [partFragments, operationFragments, Report.outcome_bind, Report.outcome_lift] at h
    obtain ⟨schema, hschema, h⟩ := Outcome.of_bind_eq_ok h
    obtain ⟨templates, htemplates, h⟩ := Outcome.of_bind_eq_ok h
    obtain ⟨ds, hdeclarations, rfl⟩ := Outcome.of_map_eq_ok hschema
    cases h
    intro f hf
    simp only [List.cons_append, List.mem_cons, List.mem_append] at hf
    rcases hf with rfl | hf | rfl | hf
    · exact .document (.operations htable hdeclarations)
    · rw [typeEdits_eq] at hf
      obtain ⟨e, he, rfl⟩ := List.mem_map.1 hf
      exact .edit (hedits e he)
    · exact .bindings htable
    · exact emits_operationTemplates htable htemplates f hf
  | query key =>
    have hkey : key ∈ t.queryKeys := by simpa [Table.parts] using hpart
    simp only [partFragments, Report.outcome_lift, queryFragments] at h
    obtain ⟨schema, hschema, h⟩ := Outcome.of_bind_eq_ok h
    obtain ⟨ds, hdeclarations, rfl⟩ := Outcome.of_map_eq_ok hschema
    cases h
    intro f hf
    simp only [List.cons_append, List.nil_append, List.mem_cons] at hf
    rcases hf with rfl | rfl | hf
    · exact .document (.query htable hkey hdeclarations)
    · exact .queryBinding htable hkey
    · exact emits_fieldTemplates (.query htable hkey) f hf
  | relation r =>
    have hrelation : r ∈ t.relations := by
      simp only [Table.parts, List.mem_append, List.mem_map, List.mem_filter] at hpart
      rcases hpart with (hpart | ⟨key, -, hpart⟩) | ⟨other, ⟨hrelation, -⟩, hpart⟩
      · simp at hpart
      · cases hpart
      · cases hpart
        exact hrelation
    simp only [partFragments, Report.outcome_pure, Except.ok.injEq] at h
    subst h
    intro f hf
    simp only [relationFragments, templatePair, List.cons_append, List.nil_append,
      List.mem_cons] at hf
    rcases hf with rfl | rfl | rfl | hf
    · exact .binding (.relation htable hrelation)
    · exact .template (.relation htable hrelation) (by simp)
    · exact .template (.relation htable hrelation) (by simp)
    · have hmany : f ∈ (partEdits t (.relation r)).map (Fragment.ofEdit c.publishedLocation) := by
        rw [partEdits]
        split at hf
        next hmany => rwa [if_pos hmany]
        · cases hf
      obtain ⟨e, he, rfl⟩ := List.mem_map.1 hmany
      exact .edit (hedits e he)

theorem emits_binding {b : Binding} (hb : b ∈ c.bindings) :
    ∀ f ∈ bindingFragments c b, c.Emits f := by
  have hedits : ∀ e ∈ bindingEdits c b, e ∈ c.publishedEdits := fun e he =>
    List.mem_append_left _ (List.mem_append_right _ (List.mem_flatMap.2 ⟨b, hb, he⟩))
  intro f hf
  cases b with
  | function type field source =>
    simp only [bindingFragments, functionFragments, List.cons_append, List.mem_cons,
      List.mem_append] at hf
    rcases hf with rfl | hf | hf
    · exact .binding (.function hb)
    · exact emits_fieldTemplates (.function hb) f hf
    · have hsome : f ∈ (bindingEdits c (.function type field source)).map
          (Fragment.ofEdit c.publishedLocation) := by
        rw [bindingEdits]
        split at hf
        · cases hf
        next hnone => rwa [if_neg hnone]
      obtain ⟨e, he, rfl⟩ := List.mem_map.1 hsome
      exact .edit (hedits e he)
  | foreignInput type field foreignKey isCondition =>
    rw [bindingFragments, List.mem_singleton] at hf
    subst hf
    exact .edit (hedits _ (List.mem_singleton_self _))

/-- **Every fragment that is emitted is of one of a few kinds** (`Catalog.Emits`), so that a proof
about emitted fragments is one case per kind. -/
theorem emits_of_emit {fs : List Fragment} (h : c.emit.outcome = .ok fs) :
    ∀ f ∈ fs, c.Emits f := by
  simp only [emit, Report.outcome_bind, Report.outcome_mapM, Report.outcome_lift] at h
  obtain ⟨tables, htables, h⟩ := Outcome.of_bind_eq_ok h
  obtain ⟨shared, hshared, h⟩ := Outcome.of_bind_eq_ok h
  have hall : ∀ f ∈ tables.flatten ++ c.bindings.flatMap (bindingFragments c) ++ shared
      ++ stripFragments c, c.Emits f := by
    intro f hf
    simp only [List.mem_append, List.mem_flatten, List.mem_flatMap] at hf
    rcases hf with ((⟨fs, hfs, hf⟩ | ⟨b, hb, hf⟩) | hf) | hf
    · obtain ⟨t, ht, hfragments⟩ := Outcome.exists_of_mem_mapM htables hfs
      rw [tableFragments, Report.outcome_map, Report.outcome_mapM] at hfragments
      obtain ⟨parts, hparts, hflat⟩ := Outcome.of_bind_eq_ok hfragments
      cases hflat
      obtain ⟨gs, hgs, hf⟩ := List.mem_flatten.1 hf
      obtain ⟨part, hpart, hone⟩ := Outcome.exists_of_mem_mapM hparts hgs
      refine emits_part ht hpart (fun e he => ?_) hone f hf
      exact List.mem_append_left _ (List.mem_append_left _
        (List.mem_flatMap.2 ⟨t, ht, List.mem_flatMap.2 ⟨part, hpart, he⟩⟩))
    · exact emits_binding hb f hf
    · unfold sharedFragments at hshared
      split at hshared
      · cases hshared
        cases hf
      next hsome =>
        obtain ⟨schema, hschema, rfl⟩ := Outcome.of_map_eq_ok hshared
        obtain ⟨ds, hdeclarations, rfl⟩ := Outcome.of_map_eq_ok hschema
        rw [List.mem_singleton] at hf
        subst hf
        exact .document (.shared (by simpa using hsome) hdeclarations)
    · obtain ⟨e, he, rfl⟩ := List.mem_map.1 hf
      exact .edit (List.mem_append_right _ he)
  split at h
  · cases h
    intro f hf
    rcases List.mem_cons.1 hf with rfl | hf
    · exact .seed
    · exact hall f hf
  · cases h
    exact hall

/-! ### Documents that are emitted

A fragment is from a table, from a binding or shared, and the lemmas say from which part if more
is known about it.
-/

/-- What tables, bindings, shared declarations and stripping come to is emitted. -/
theorem exists_of_emit {fs : List Fragment} (h : c.emit.outcome = .ok fs) :
    ∃ tables shared, c.tables.mapM (fun t => (c.tableFragments t).outcome) = .ok tables ∧
      sharedFragments c = .ok shared ∧
      ∀ g ∈ tables.flatten ++ c.bindings.flatMap (bindingFragments c) ++ shared
        ++ stripFragments c, g ∈ fs := by
  simp only [emit, Report.outcome_bind, Report.outcome_mapM, Report.outcome_lift] at h
  obtain ⟨tables, htables, h⟩ := Outcome.of_bind_eq_ok h
  obtain ⟨shared, hshared, h⟩ := Outcome.of_bind_eq_ok h
  refine ⟨tables, shared, htables, hshared, fun g hg => ?_⟩
  split at h
  · cases h
    exact List.mem_cons_of_mem _ hg
  · cases h
    exact hg

/-- What tables and shared declarations come to is emitted. -/
theorem of_emit {fs : List Fragment} (h : c.emit.outcome = .ok fs) :
    ∃ tables shared, c.tables.mapM (fun t => (c.tableFragments t).outcome) = .ok tables ∧
      sharedFragments c = .ok shared ∧ (∀ gs ∈ tables, ∀ g ∈ gs, g ∈ fs) ∧
        ∀ g ∈ shared, g ∈ fs := by
  obtain ⟨tables, shared, htables, hshared, hall⟩ := exists_of_emit h
  refine ⟨tables, shared, htables, hshared, fun gs hgs g hg => hall g ?_, fun g hg => hall g ?_⟩
  · have hflat : g ∈ tables.flatten := List.mem_flatten.2 ⟨gs, hgs, hg⟩
    simp only [List.mem_append, hflat, true_or]
  · simp only [List.mem_append, hg, or_true, true_or]

/-- What a binding comes to is emitted. -/
theorem mem_of_binding {fs : List Fragment} (h : c.emit.outcome = .ok fs) {b : Binding}
    (hb : b ∈ c.bindings) : ∀ g ∈ bindingFragments c b, g ∈ fs := by
  obtain ⟨tables, shared, -, -, hall⟩ := exists_of_emit h
  intro g hg
  refine hall g ?_
  have hbinding : g ∈ c.bindings.flatMap (bindingFragments c) := List.mem_flatMap.2 ⟨b, hb, hg⟩
  simp only [List.mem_append, hbinding, or_true, true_or]

/-- What a part of a table comes to is emitted. -/
theorem exists_part_of_emit {fs : List Fragment} (h : c.emit.outcome = .ok fs)
    (htable : t ∈ c.tables) {part : TablePart} (hpart : part ∈ t.parts) :
    ∃ gs, (c.partFragments t part).outcome = .ok gs ∧ ∀ g ∈ gs, g ∈ fs := by
  obtain ⟨tables, -, htables, -, hemitted, -⟩ := of_emit h
  obtain ⟨all, hall, hfragments⟩ := Outcome.exists_result_of_mem htables htable
  rw [tableFragments, Report.outcome_map, Report.outcome_mapM] at hfragments
  obtain ⟨parts, hparts, hflat⟩ := Outcome.of_bind_eq_ok hfragments
  cases hflat
  obtain ⟨gs, hgs, hone⟩ := Outcome.exists_result_of_mem hparts hpart
  exact ⟨gs, hone, fun g hg => hemitted _ hall g (List.mem_flatten.2 ⟨gs, hgs, hg⟩)⟩

/-- The operations of every table are declared. -/
theorem exists_operations_of_emit {fs : List Fragment} (h : c.emit.outcome = .ok fs)
    (htable : t ∈ c.tables) : Outcome.Holds (operationDeclarations c t) fun ds =>
      Fragment.ofText (schemaLocation t.name) (renderDocument ds) ∈ fs := by
  have hpart : TablePart.operations ∈ t.parts := by simp [Table.parts]
  obtain ⟨gs, hone, hemitted⟩ := exists_part_of_emit h htable hpart
  simp only [partFragments, operationFragments, Report.outcome_bind, Report.outcome_lift] at hone
  obtain ⟨schema, hschema, hone⟩ := Outcome.of_bind_eq_ok hone
  obtain ⟨templates, -, hone⟩ := Outcome.of_bind_eq_ok hone
  obtain ⟨ds, hdeclarations, rfl⟩ := Outcome.of_map_eq_ok hschema
  cases hone
  exact ⟨ds, hdeclarations, hemitted _ List.mem_cons_self⟩

theorem exists_query_of_emit {fs : List Fragment} (h : c.emit.outcome = .ok fs)
    (htable : t ∈ c.tables) {key : Key} (hkey : key ∈ t.queryKeys) :
    Outcome.Holds (queryDeclarations t key) fun ds =>
      Fragment.ofText (schemaLocation (t.name ++ "." ++ queryName key))
        (renderDocument ds) ∈ fs := by
  have hpart : TablePart.query key ∈ t.parts := by simp [Table.parts, hkey]
  obtain ⟨gs, hone, hemitted⟩ := exists_part_of_emit h htable hpart
  simp only [partFragments, Report.outcome_lift, queryFragments] at hone
  obtain ⟨schema, hschema, hone⟩ := Outcome.of_bind_eq_ok hone
  obtain ⟨ds, hdeclarations, rfl⟩ := Outcome.of_map_eq_ok hschema
  cases hone
  exact ⟨ds, hdeclarations, hemitted _ List.mem_cons_self⟩

/-- If there are tables, what they share is declared. -/
theorem exists_shared_of_emit {fs : List Fragment} (h : c.emit.outcome = .ok fs)
    (hsome : c.tables ≠ []) : Outcome.Holds (sharedDeclarations c) fun ds =>
      Fragment.ofText sharedLocation (renderDocument ds) ∈ fs := by
  obtain ⟨-, shared, -, hshared, -, hemitted⟩ := of_emit h
  rw [sharedFragments, if_neg (by simpa using hsome)] at hshared
  obtain ⟨schema, hschema, rfl⟩ := Outcome.of_map_eq_ok hshared
  obtain ⟨ds, hdeclarations, rfl⟩ := Outcome.of_map_eq_ok hschema
  exact ⟨ds, hdeclarations, hemitted _ List.mem_cons_self⟩

/-- **Every generated document is emitted**, as the text that `renderDocument` makes of it. -/
theorem mem_of_generates {fs : List Fragment} (h : c.emit.outcome = .ok fs) {location : String}
    {ds : List Declaration} (hdocument : c.Generates location ds) :
    Fragment.ofText location (renderDocument ds) ∈ fs := by
  cases hdocument with
  | operations htable hdeclarations =>
    exact Outcome.Holds.of_eq_ok (exists_operations_of_emit h htable) hdeclarations
  | query htable hkey hdeclarations =>
    exact Outcome.Holds.of_eq_ok (exists_query_of_emit h htable hkey) hdeclarations
  | shared hsome hdeclarations =>
    exact Outcome.Holds.of_eq_ok (exists_shared_of_emit h hsome) hdeclarations

end Catalog

end SchemaLoom
