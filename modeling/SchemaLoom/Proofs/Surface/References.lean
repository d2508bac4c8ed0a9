/-
What generated declarations refer to.

Fields and arguments of generated declarations refer to types by name: to tables and the inputs
that are named after them, to types of fields, to common inputs, and to the inputs that stand in
for enums and object types.  A `Vocabulary` has names of all these sorts.

Of each generated document it is shown that it speaks within every vocabulary of its catalog
(`SpeaksWithin`), one kind of entries after the other.  What stands in for names of most sorts is
introduced by generated documents themselves (`Introduces`), and that is shown at the end.

A vocabulary is any property of names with the closure conditions, so that the same lemmas serve
whatever is meant by a name being known.
-/
import SchemaLoom.Proofs.Surface.TypesInUse
import SchemaLoom.Surface.RelationField

namespace SchemaLoom.Surface

/-! ### References

A `Vocabulary` of a catalog has the names of its tables, those of the types of its fields, and all
that is introduced for every catalog.
-/

/-- The types that an operation refers to. -/
def Operation.references (o : Operation) : List String :=
  o.type.base :: o.arguments.map (·.type.base)

/-- The types that the members of a declaration refer to. -/
def Declaration.references : Declaration → List String
  | extension _ operations => operations.flatMap (·.references)
  | object _ fields | input _ fields => fields.map (·.type.base)
  | root _ | enum _ _ => []

/-- The type that a declaration introduces; an extension introduces none. -/
def Declaration.introduces? : Declaration → Option String
  | extension _ _ => none
  | root name | object name _ | input name _ | enum name _ => some name

/-- The scalars that every schema has. -/
def builtinScalars : List String := ["ID", "String", "Int", "Float", "Boolean"]

/-- The names of the common inputs and enums. -/
def commonNames : List String := commonDeclarations.filterMap (·.introduces?)

/-- The names of a table and of the types that are generated for it. -/
def namesOf (t : Table) : List String :=
  [t.name, connectionName t.name, filterName t.name, conditionName t.name]
    ++ mutations.map (inputName t.name)

/-- The type `name` is among those that `ds` introduce. -/
def Introduces (ds : List Declaration) (name : String) : Prop :=
  ∃ d ∈ ds, d.introduces? = some name

instance (ds : List Declaration) (name : String) : Decidable (Introduces ds name) :=
  inferInstanceAs (Decidable (∃ d ∈ ds, d.introduces? = some name))

/-- All names to which the declarations of `c` refer are `known`. -/
structure Vocabulary (c : Catalog) (used : TypesInUse) (known : String → Prop) : Prop where
  builtin : ∀ name ∈ builtinScalars, known name
  common : ∀ name ∈ commonNames, known name
  tables : ∀ t ∈ c.tables, ∀ name ∈ namesOf t, known name
  fields : ∀ t ∈ c.tables, ∀ f ∈ t.fields, ∀ shape, shapeOf f.type = .ok shape → known shape.base
  /-- The types of the fields of object types. -/
  members : ∀ type o, c.objectType? type = some o → ∀ f ∈ o.fields, ∀ shape,
    shapeOf f.type = .ok shape → known shape.base
  enums : ∀ type, c.category type = .enum → known type
  filters : ∀ type ∈ used.enums, known ("Model" ++ type ++ "Input")
  mirrors : ∀ type ∈ used.objects, known (type ++ "Input")

/-- All types that the entries refer to are known. -/
def Speaks (known : String → Prop) (es : List Entry) : Prop := ∀ e ∈ es, known e.type.base

/-- All types that the declarations refer to are known. -/
def SpeaksWithin (known : String → Prop) (ds : List Declaration) : Prop :=
  ∀ d ∈ ds, ∀ name ∈ d.references, known name

variable {c : Catalog} {t : Table} {used : TypesInUse} {known : String → Prop}

theorem Speaks.input {name : String} {es : List Entry} (h : Speaks known es) :
    ∀ other ∈ (Declaration.input name es).references, known other := by
  intro other hother
  obtain ⟨e, he, rfl⟩ := List.mem_map.1 hother
  exact h e he

/-! ### Types of fields -/

/-- The field that says the type of a field that is no relation is no relation either. -/
theorem exists_plainField {f : Sdl.Field} (hf : f ∈ t.fields) (hplain : t.relation? f.name = none)
    {shape : Sdl.Shape} (hshape : fieldShape t f = .ok shape) :
    ∃ g ∈ plainFields t, shapeOf g.type = .ok shape := by
  unfold fieldShape at hshape
  cases hfirst : t.field? f.name with
  | none =>
    rw [hfirst] at hshape
    exact ⟨f, List.mem_filter.2 ⟨hf, by rw [hplain]; rfl⟩, hshape⟩
  | some g =>
    rw [hfirst] at hshape
    have hname : g.name = f.name := by simpa using List.find?_some hfirst
    exact ⟨g, List.mem_filter.2 ⟨List.mem_of_find?_eq_some hfirst, by rw [hname, hplain]; rfl⟩,
      hshape⟩

namespace Vocabulary

variable (h : Vocabulary c used known)

include h

theorem text : known "String" := h.builtin "String" (by decide)

theorem textFilter : known Catalog.textFilter := h.common _ (by decide)

theorem keyFieldType (ht : t ∈ c.tables) {name base : String}
    (hbase : t.keyFieldType name = .ok base) : known base := by
  unfold Table.keyFieldType Table.fieldShape? at hbase
  obtain ⟨found, hfound, hbase⟩ := Outcome.of_bind_eq_ok hbase
  split at hfound
  · cases hfound
    cases hbase
    split
    · exact h.builtin "ID" (by decide)
    · exact h.text
  next f hfield =>
    obtain ⟨shape, hshape, rfl⟩ := Outcome.of_map_eq_ok hfound
    cases hbase
    exact h.fields t ht f (List.mem_of_find?_eq_some hfield) shape hshape

theorem isKeyEntry (ht : t ∈ c.tables) {e : Entry} (he : IsKeyEntry t e) : known e.type.base :=
  h.keyFieldType ht he.2

/-- The input by which a field is filtered. -/
theorem filterInput (hused : used.Covers c) (ht : t ∈ c.tables) {f : Sdl.Field}
    (hf : f ∈ plainFields t) {shape : Sdl.Shape} (hshape : shapeOf f.type = .ok shape)
    {input : String} (hinput : c.filterInput? shape.base = some input) : known input := by
  unfold Catalog.filterInput? at hinput
  split at hinput
  · cases hinput
    exact h.common _ (of_lookup_getD (P := (· ∈ commonNames)) (by decide) (by decide) shape.base)
  next henum =>
    cases hinput
    exact h.filters _ (hused.ofEnum t ht f hf shape hshape henum)
  · cases hinput

/-- The type of a field within the input of a mutation. -/
theorem inputShape (hused : used.Covers c) (ht : t ∈ c.tables) {f : Sdl.Field}
    (hf : f ∈ plainFields t) {shape given result : Sdl.Shape} (hshape : shapeOf f.type = .ok shape)
    (hbase : given.base = shape.base) {action : Access.Action} (haction : action ∈ mutations)
    (hresult : inputShape? c action given = some result) : known result.base := by
  have hfield := h.fields t ht f (List.mem_filter.1 hf).1 shape hshape
  unfold inputShape? at hresult
  rw [hbase] at hresult
  split at hresult
  · cases hresult
  next hmodel =>
    cases hresult
    have htable := category_spec c shape.base
    rw [hmodel] at htable
    obtain ⟨other, hother, hname⟩ := htable
    apply h.tables other hother
    show inputName shape.base action ∈ namesOf other
    rw [← hname]
    exact List.mem_append_right _ (List.mem_map_of_mem haction)
  next hobject =>
    cases hresult
    exact h.mirrors _ (hused.ofObject t ht f hf shape hshape hobject)
  · cases hresult
    exact hbase ▸ hfield
  · cases hresult
    exact hbase ▸ hfield

/-! ### Entries -/

theorem filterEntry (hused : used.Covers c) (ht : t ∈ c.tables) {f : Sdl.Field} (hf : f ∈ t.fields)
    {e : Entry} (hentry : filterEntry c t f = .ok (some e)) : known e.type.base := by
  unfold Surface.filterEntry at hentry
  split at hentry
  · split at hentry
    · cases hentry
    · cases hentry
      exact h.textFilter
  next hplain =>
    obtain ⟨shape, hshape, hentry⟩ := Outcome.of_bind_eq_ok hentry
    obtain ⟨input, hinput, rfl⟩ := Option.map_eq_some_iff.1 (Except.ok.inj hentry)
    obtain ⟨g, hg, htype⟩ := exists_plainField hf hplain hshape
    exact h.filterInput hused ht hg htype hinput

theorem createEntry (hused : used.Covers c) (ht : t ∈ c.tables) {isGenerated : Bool}
    {f : Sdl.Field} (hf : f ∈ t.fields) {e : Entry}
    (hentry : createEntry c t isGenerated f = .ok (some e)) : known e.type.base := by
  unfold Surface.createEntry at hentry
  obtain ⟨shape, hshape, hentry⟩ := Outcome.of_bind_eq_ok hentry
  split at hentry
  · split at hentry
    · cases hentry
    · cases hentry
      exact h.text
  next hplain =>
    obtain ⟨result, hresult, rfl⟩ := Option.map_eq_some_iff.1 (Except.ok.inj hentry)
    obtain ⟨g, hg, htype⟩ := exists_plainField hf hplain hshape
    have hcreate : Access.Action.create ∈ mutations := by decide
    refine h.inputShape hused ht hg htype ?_ hcreate hresult
    split <;> rfl

theorem updateEntry (hused : used.Covers c) (ht : t ∈ c.tables) {f : Sdl.Field} (hf : f ∈ t.fields)
    {e : Entry} (hentry : updateEntry c t f = .ok (some e)) : known e.type.base := by
  unfold Surface.updateEntry at hentry
  obtain ⟨shape, hshape, hentry⟩ := Outcome.of_bind_eq_ok hentry
  split at hentry
  · split at hentry
    · cases hentry
    · cases hentry
      exact h.text
  next hplain =>
    obtain ⟨g, hg, htype⟩ := exists_plainField hf hplain hshape
    split at hentry
    · cases hentry
      exact h.fields t ht g (List.mem_filter.1 hg).1 shape htype
    · obtain ⟨result, hresult, rfl⟩ := Option.map_eq_some_iff.1 (Except.ok.inj hentry)
      have hupdate : Access.Action.update ∈ mutations := by decide
      have hbase : shape.optional.base = shape.base := rfl
      exact h.inputShape hused ht hg htype hbase hupdate hresult

/-! ### Inputs of tables -/

theorem filterFields (hused : used.Covers c) (ht : t ∈ c.tables) {name : String}
    (hname : known name)
    {es : List Entry} (hfields : filterFields c t name = .ok es) : Speaks known es := by
  intro e he
  rcases of_mem_filterFields hfields he with ⟨f, hf, hentry⟩ | ⟨key, -, rfl⟩ | hword
  · exact h.filterEntry hused ht hf hentry
  · exact h.textFilter
  · simp only [List.mem_cons, List.not_mem_nil, or_false] at hword
    rcases hword with rfl | rfl | rfl <;> exact hname

theorem createFields (hused : used.Covers c) (ht : t ∈ c.tables) {es : List Entry}
    (hfields : createFields c t = .ok es) : Speaks known es := by
  intro e he
  rcases of_mem_createFields hfields he with ⟨isGenerated, f, hf, hentry⟩ | ⟨key, -, rfl⟩ | hkey
  · exact h.createEntry hused ht hf hentry
  · exact h.text
  · exact h.isKeyEntry ht hkey

theorem updateFields (hused : used.Covers c) (ht : t ∈ c.tables) {es : List Entry}
    (hfields : updateFields c t = .ok es) : Speaks known es := by
  intro e he
  rcases of_mem_updateFields hfields he with ⟨f, hf, hentry⟩ | ⟨key, -, rfl⟩ | hkey
  · exact h.updateEntry hused ht hf hentry
  · exact h.text
  · exact h.isKeyEntry ht hkey

theorem keyEntriesOf (ht : t ∈ c.tables) {es : List Entry} (hentries : keyEntriesOf t = .ok es) :
    Speaks known es := fun _ he => h.isKeyEntry ht (isKeyEntry_of_keyEntriesOf hentries he)

/-! ### Documents -/

theorem mutation (ht : t ∈ c.tables) {action : Access.Action} (haction : action ∈ mutations) :
    ∀ name ∈ (mutation t action).references, known name := by
  intro name hname
  apply h.tables t ht
  simp only [Operation.references, Surface.mutation, Entry.needed, Entry.plain, List.map_cons,
    List.map_nil, List.mem_cons, List.not_mem_nil, or_false] at hname
  rcases hname with rfl | rfl | rfl
  · simp [namesOf]
  · exact List.mem_append_right _ (List.mem_map_of_mem haction)
  · simp [namesOf]

/-- **The operations of a table speak within every vocabulary (`SpeaksWithin`).** -/
theorem operationDeclarations (hused : used.Covers c) (ht : t ∈ c.tables) {ds : List Declaration}
    (hdeclarations : operationDeclarations c t = .ok ds) : SpeaksWithin known ds := by
  have hown := h.tables t ht
  have hwhole : known "Int" := h.builtin "Int" (by decide)
  unfold Surface.operationDeclarations at hdeclarations
  obtain ⟨key, hkey, hdeclarations⟩ := Outcome.of_bind_eq_ok hdeclarations
  obtain ⟨condition, hcondition, hdeclarations⟩ := Outcome.of_bind_eq_ok hdeclarations
  obtain ⟨filter, hfilter, hdeclarations⟩ := Outcome.of_bind_eq_ok hdeclarations
  obtain ⟨create, hcreate, hdeclarations⟩ := Outcome.of_bind_eq_ok hdeclarations
  obtain ⟨update, hupdate, hdeclarations⟩ := Outcome.of_bind_eq_ok hdeclarations
  obtain ⟨delete, hdelete, hdeclarations⟩ := Outcome.of_bind_eq_ok hdeclarations
  cases hdeclarations
  have hname : known t.name := hown _ (by simp [namesOf])
  have hconnection : known (connectionName t.name) := hown _ (by simp [namesOf])
  have hfiltername : known (filterName t.name) := hown _ (by simp [namesOf])
  have hconditionname : known (conditionName t.name) := hown _ (by simp [namesOf])
  unfold SpeaksWithin
  simp only [List.forall_mem_cons, List.not_mem_nil, false_implies, implies_true, and_true]
  refine ⟨?_, ?_, ?_, (h.filterFields hused ht hconditionname hcondition).input,
    (h.filterFields hused ht hfiltername hfilter).input, (h.createFields hused ht hcreate).input,
    (h.updateFields hused ht hupdate).input, (h.keyEntriesOf ht hdelete).input⟩
  · intro name hmember
    simp only [Declaration.references, Operation.references, Entry.plain, List.flatMap_cons,
      List.flatMap_nil, List.map_cons, List.map_nil, List.mem_append, List.mem_cons, List.mem_map,
      List.not_mem_nil, or_false] at hmember
    rcases hmember with (rfl | ⟨e, he, rfl⟩) | rfl | rfl | rfl | rfl
    · exact hname
    · exact h.keyEntriesOf ht hkey e he
    · exact hconnection
    · exact hfiltername
    · exact hwhole
    · exact h.text
  · intro name hmember
    obtain ⟨o, ho, hmember⟩ := List.mem_flatMap.1 hmember
    obtain ⟨action, haction, rfl⟩ := List.mem_map.1 ho
    exact h.mutation ht haction name hmember
  · intro name hmember
    simp only [Declaration.references, Entry.list, Entry.plain, List.map_cons, List.map_nil,
      List.mem_cons, List.not_mem_nil, or_false] at hmember
    rcases hmember with rfl | rfl
    · exact hname
    · exact h.text

/-- The type of the argument that restricts a sort key. -/
theorem sortArgumentType {key : Key} {type : String}
    (htype : sortArgumentType? t key = .ok (some type)) :
    known type ∨ key.isComposite = true ∧ type = compositeConditionName t key := by
  unfold Surface.sortArgumentType? at htype
  split at htype
  · cases htype
  next field hsort =>
    obtain ⟨base, -, htype⟩ := Outcome.of_bind_eq_ok htype
    cases htype
    exact Or.inl
      (h.common _ (of_lookup_getD (P := (· ∈ commonNames)) (by decide) (by decide) base))
  next hnone hsingle =>
    cases htype
    refine Or.inr ⟨?_, rfl⟩
    cases hsort : key.sortFields with
    | nil => exact absurd hsort hnone
    | cons first rest =>
      cases rest with
      | nil => exact absurd hsort (hsingle first)
      | cons second rest => simp [Key.isComposite, hsort]

/-- The operation of a query by key. -/
theorem queryOperation (ht : t ∈ c.tables) {key : Key} {o : Operation}
    (hoperation : queryOperation t key = .ok o) : ∀ name ∈ o.references,
      known name ∨ key.isComposite = true ∧ name = compositeConditionName t key := by
  have hown := h.tables t ht
  unfold Surface.queryOperation at hoperation
  obtain ⟨base, hbase, hoperation⟩ := Outcome.of_bind_eq_ok hoperation
  obtain ⟨sort, hsort, hoperation⟩ := Outcome.of_bind_eq_ok hoperation
  cases hoperation
  intro name hname
  simp only [Operation.references, Entry.plain, List.map_cons, List.map_nil, List.map_append,
    List.cons_append, List.mem_append, List.mem_cons, List.mem_map, Option.mem_toList,
    List.not_mem_nil, or_false] at hname
  rcases hname with rfl | rfl | ⟨e, he, rfl⟩ | rfl | rfl | rfl | rfl
  · exact Or.inl (hown _ (by simp [namesOf]))
  · exact Or.inl (h.keyFieldType ht hbase)
  · obtain ⟨type, rfl, rfl⟩ := Option.map_eq_some_iff.1 he
    exact h.sortArgumentType hsort
  · exact Or.inl (h.common _ (by decide))
  · exact Or.inl (hown _ (by simp [namesOf]))
  · exact Or.inl (h.builtin _ (by decide))
  · exact Or.inl h.text

/-- The inputs of a composite sort key refer to fields and to each other. -/
theorem compositeInputs (ht : t ∈ c.tables) {key : Key} {ds : List Declaration}
    (hinputs : compositeInputs t key = .ok ds) :
    SpeaksWithin (fun name => known name ∨ name = compositeKeyName t key) ds := by
  unfold Surface.compositeInputs at hinputs
  obtain ⟨parts, hparts, hinputs⟩ := Outcome.of_bind_eq_ok hinputs
  cases hinputs
  unfold SpeaksWithin
  simp only [List.forall_mem_cons, List.not_mem_nil, false_implies, implies_true, and_true]
  refine ⟨Speaks.input fun e he => Or.inr ?_, Speaks.input fun e he => Or.inl ?_⟩
  · simp only [List.mem_append, List.mem_map, List.mem_cons, List.not_mem_nil, or_false] at he
    rcases he with ⟨operator, -, rfl⟩ | rfl | rfl <;> rfl
  · obtain ⟨name, -, hentry⟩ := Outcome.exists_of_mem_mapM hparts he
    obtain ⟨base, hbase, hentry⟩ := Outcome.of_bind_eq_ok hentry
    cases hentry
    exact h.keyFieldType ht hbase

omit h in
/-- The inputs of a composite sort key. -/
theorem introduces_compositeInputs {key : Key} {ds : List Declaration}
    (hinputs : Surface.compositeInputs t key = .ok ds) :
    ∀ name ∈ [compositeConditionName t key, compositeKeyName t key], Introduces ds name := by
  unfold Surface.compositeInputs at hinputs
  obtain ⟨parts, -, hinputs⟩ := Outcome.of_bind_eq_ok hinputs
  cases hinputs
  simp [Introduces, Declaration.introduces?]

/-- **A query by key speaks within every vocabulary and of the inputs that stand beside it.** -/
theorem queryDeclarations (ht : t ∈ c.tables) {key : Key} {ds : List Declaration}
    (hdeclarations : queryDeclarations t key = .ok ds) :
    SpeaksWithin (fun name => known name ∨ Introduces ds name) ds := by
  unfold Surface.queryDeclarations at hdeclarations
  obtain ⟨o, hoperation, hdeclarations⟩ := Outcome.of_bind_eq_ok hdeclarations
  have hquery := h.queryOperation ht hoperation
  intro d hd name hname
  split at hdeclarations
  next hcomposite =>
    obtain ⟨inputs, hinputs, hdeclarations⟩ := Outcome.of_bind_eq_ok hdeclarations
    cases hdeclarations
    have hbeside : ∀ other ∈ [compositeConditionName t key, compositeKeyName t key],
        Introduces (.extension "Query" [o] :: inputs) other := by
      intro other hother
      obtain ⟨d, hd, his⟩ := introduces_compositeInputs hinputs other hother
      exact ⟨d, List.mem_cons_of_mem _ hd, his⟩
    rcases List.mem_cons.1 hd with rfl | hd
    · rw [Declaration.references, List.flatMap_singleton] at hname
      rcases hquery name hname with hknown | ⟨-, rfl⟩
      · exact Or.inl hknown
      · exact Or.inr (hbeside _ (by simp))
    · rcases h.compositeInputs ht hinputs d hd name hname with hknown | rfl
      · exact Or.inl hknown
      · exact Or.inr (hbeside _ (by simp))
  next hsimple =>
    cases hdeclarations
    rw [List.mem_singleton.1 hd, Declaration.references, List.flatMap_singleton] at hname
    rcases hquery name hname with hknown | ⟨hcomposite, -⟩
    · exact Or.inl hknown
    · exact absurd hcomposite hsimple

/-- The entries of a mirror. -/
theorem mirrorFields (hused : used.Covers c) {type : String} (htype : type ∈ used.objects)
    {es : List Entry} (hfields : mirrorFields c type = .ok es) : Speaks known es := by
  intro e he
  obtain ⟨o, hobject, f, hf, hentry⟩ := of_mem_mirrorFields hfields he
  unfold mirrorEntry at hentry
  obtain ⟨shape, hshape, hentry⟩ := Outcome.of_bind_eq_ok hentry
  have hbase := h.members type o hobject f hf shape hshape
  split at hentry
  · cases hentry
  · cases hentry
  next his =>
    cases hentry
    exact h.mirrors _ (hused.through type htype o hobject f hf shape hshape his)
  · cases hentry
    exact hbase
  · cases hentry
    exact hbase

/-- The common inputs refer to scalars and to each other. -/
theorem commonDeclarations : SpeaksWithin known commonDeclarations := by
  intro d hd name hname
  have hall : ∀ d ∈ Surface.commonDeclarations, ∀ name ∈ d.references,
      name ∈ builtinScalars ∨ name ∈ commonNames := by decide +kernel
  rcases hall d hd name hname with hscalar | hcommon
  · exact h.builtin name hscalar
  · exact h.common name hcommon

/-- **The shared declarations speak within every vocabulary.** -/
theorem sharedDeclarations (huses : typesInUse c = .ok used) {ds : List Declaration}
    (hdeclarations : sharedDeclarations c = .ok ds) : SpeaksWithin known ds := by
  have hused := covers_of_typesInUse huses
  obtain ⟨-, hmem⟩ := (mem_sharedDeclarations hdeclarations).of_eq_ok huses
  intro d hd
  rcases (hmem d).1 hd with ⟨root, -, -, rfl⟩ | hd | ⟨type, htype, rfl⟩ | ⟨type, htype, hmirror⟩
  · intro name hname
    cases hname
  · exact h.commonDeclarations d hd
  · have henum := h.enums type (hused.enums type htype)
    refine Speaks.input fun e he => ?_
    simp only [List.mem_cons, List.not_mem_nil, or_false] at he
    rcases he with rfl | rfl <;> exact henum
  · obtain ⟨fields, hfields, -, rfl⟩ := of_mirror?_eq_some hmirror
    exact (h.mirrorFields hused htype hfields).input

/-- The rewritten field of a relation refers to the types of its target. -/
theorem listedField {r : Relation} {name : String} (hname : name ∈ (listedField r).references) :
    known name ∨ c.table? r.target = none ∧
      (name = connectionName r.target ∨ name = filterName r.target) := by
  have hown : known name ∨ name = connectionName r.target ∨ name = filterName r.target := by
    simp only [Operation.references, Surface.listedField, Entry.plain, List.map_cons, List.map_nil,
      List.mem_cons, List.not_mem_nil, or_false] at hname
    rcases hname with rfl | rfl | rfl | rfl | rfl
    · exact Or.inr (Or.inl rfl)
    · exact Or.inr (Or.inr rfl)
    · exact Or.inl (h.common _ (by decide))
    · exact Or.inl (h.builtin _ (by decide))
    · exact Or.inl h.text
  rcases hown with hknown | hnamed
  · exact Or.inl hknown
  cases hfound : c.table? r.target with
  | none => exact Or.inr ⟨rfl, hnamed⟩
  | some t =>
    obtain ⟨ht, htarget⟩ := Catalog.mem_of_table? hfound
    rw [← htarget] at hnamed
    refine Or.inl (h.tables t ht name ?_)
    rcases hnamed with rfl | rfl <;> simp [namesOf]

end Vocabulary

/-! ### What is introduced -/

/-- The types that are generated for a table are introduced with its operations. -/
theorem introduces_operationDeclarations {ds : List Declaration}
    (h : operationDeclarations c t = .ok ds) {name : String} (hname : name ∈ namesOf t) :
    name = t.name ∨ Introduces ds name := by
  obtain ⟨key, condition, filter, create, update, -, -, -, -, -, rfl⟩ := of_operationDeclarations h
  simp only [namesOf, mutations, List.map_cons, List.map_nil, List.cons_append, List.nil_append,
    List.mem_cons, List.not_mem_nil, or_false] at hname
  simp only [Introduces, List.mem_cons, List.not_mem_nil, or_false, exists_eq_or_imp,
    exists_eq_left, Declaration.introduces?, Option.some.injEq]
  grind

section Shared

variable {ds : List Declaration} (h : sharedDeclarations c = .ok ds)

include h

/-- The common inputs are introduced with the shared declarations. -/
theorem introduces_common {name : String} (hname : name ∈ commonNames) : Introduces ds name := by
  obtain ⟨used, -, -, hmem⟩ := mem_sharedDeclarations h
  obtain ⟨d, hd, his⟩ := List.mem_filterMap.1 hname
  exact ⟨d, (hmem d).2 (Or.inr (Or.inl hd)), his⟩

/-- The filters of enums are introduced with the shared declarations. -/
theorem introduces_filter (huses : typesInUse c = .ok used) {type : String}
    (htype : type ∈ used.enums) : Introduces ds ("Model" ++ type ++ "Input") := by
  obtain ⟨-, hmem⟩ := (mem_sharedDeclarations h).of_eq_ok huses
  exact ⟨enumFilter type, (hmem _).2 (Or.inr (Or.inr (Or.inl ⟨type, htype, rfl⟩))), rfl⟩

/-- **The mirror of an object type is introduced with the shared declarations, unless every field of
the type is left out of it** (`mirror?` is none then). -/
theorem introduces_mirror (huses : typesInUse c = .ok used) {type : String}
    (htype : type ∈ used.objects) :
    Introduces ds (type ++ "Input") ∨ mirror? c type = .ok none := by
  obtain ⟨hmirrors, hmem⟩ := (mem_sharedDeclarations h).of_eq_ok huses
  obtain ⟨found, hfound⟩ := hmirrors type htype
  cases found with
  | none => exact Or.inr hfound
  | some d =>
    obtain ⟨fields, -, -, rfl⟩ := of_mirror?_eq_some hfound
    exact Or.inl ⟨_, (hmem _).2 (Or.inr (Or.inr (Or.inr ⟨type, htype, hfound⟩))), rfl⟩

end Shared

end SchemaLoom.Surface
