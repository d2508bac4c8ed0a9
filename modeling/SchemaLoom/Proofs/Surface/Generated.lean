/-
Generated declarations are made of names.

Whatever a catalog generates puts together words, names of the document, and names that are given
as arguments of directives.  If the latter are names of the language, every generated declaration
is made of names, and none of them is without members (`Catalog.Generates.isNamed`).

The module goes from types over entries and inputs to whole documents.  A name that is glued
together from names is a name, whatever the words between them, as long as the first part is one.
That an input has members is owed to the key: even of a table whose fields are all left out an
item has one.
-/
import SchemaLoom.Catalog.Emission
import SchemaLoom.Proofs.Catalog.Naming
import SchemaLoom.Proofs.Surface.Entries

namespace SchemaLoom

open Sdl

namespace Surface

variable {c : Catalog} {t : Table}

/-! ### Types -/

theorem isName_filterInput {name input : String} (hname : isName name = true)
    (h : c.filterInput? name = some input) : isName input = true := by
  unfold Catalog.filterInput? at h
  split at h
  · cases h
    exact of_lookup_getD (P := fun n => isName n = true) (by decide) (by decide) name
  · cases h
    exact isName_join (isName_join (by decide) hname) (by decide)
  · cases h

theorem isName_inputName {type : String} (htype : isName type = true) (action : Access.Action) :
    isName (inputName type action) = true := by
  have haction : isName (Text.upperFirst action.text) = true := by cases action <;> decide
  exact isName_join (isName_join haction htype) (by decide)

theorem isName_inputShape {action : Access.Action} {shape result : Shape}
    (hbase : isName shape.base = true) (h : inputShape? c action shape = some result) :
    isName result.base = true := by
  unfold inputShape? at h
  split at h
  · cases h
  · cases h
    exact isName_inputName hbase action
  · cases h
    exact isName_join hbase (by decide)
  · cases h
    exact hbase
  · cases h
    exact hbase

theorem isName_fieldShape (h : t.IsNamed) {f : Field} (hf : f ∈ t.fields) {shape : Shape}
    (hshape : fieldShape t f = .ok shape) : isName shape.base = true := by
  refine Catalog.isName_base_of_shapeOf ?_ hshape
  cases hfound : t.field? f.name with
  | none => exact (h.fields f hf).base
  | some other => exact (h.fields other (List.mem_of_find?_eq_some hfound)).base

theorem isName_keyFieldType (h : t.IsNamed) {name base : String}
    (hbase : t.keyFieldType name = .ok base) : isName base = true := by
  unfold Table.keyFieldType Table.fieldShape? at hbase
  obtain ⟨found, hfound, hbase⟩ := Outcome.of_bind_eq_ok hbase
  split at hfound
  · cases hfound
    cases hbase
    split <;> decide
  next f hfield =>
    obtain ⟨shape, hshape, rfl⟩ := Outcome.of_map_eq_ok hfound
    cases hbase
    exact Catalog.isName_base_of_shapeOf (h.fields f (List.mem_of_find?_eq_some hfield)).base hshape

/-! ### Entries

An entry is made for a field, under its own name or that of the attribute behind a relation.  Both
are names if the table gives names only.
-/

theorem isNamed_filterEntry (h : t.IsNamed) {f : Field} (hf : f ∈ t.fields) {e : Entry}
    (hentry : filterEntry c t f = .ok (some e)) : e.IsNamed := by
  unfold filterEntry at hentry
  split at hentry
  next r hr =>
    split at hentry
    · cases hentry
    next hone =>
      cases hentry
      exact Entry.isNamed_plain
        (h.myKey (List.mem_of_find?_eq_some hr) (by simpa using hone)) (by decide)
  · obtain ⟨shape, hshape, hentry⟩ := Outcome.of_bind_eq_ok hentry
    obtain ⟨input, hinput, rfl⟩ := Option.map_eq_some_iff.1 (Except.ok.inj hentry)
    exact Entry.isNamed_plain (h.fields f hf).name
      (isName_filterInput (isName_fieldShape h hf hshape) hinput)

theorem isNamed_createEntry (h : t.IsNamed) {isGenerated : Bool} {f : Field} (hf : f ∈ t.fields)
    {e : Entry} (hentry : createEntry c t isGenerated f = .ok (some e)) : e.IsNamed := by
  unfold createEntry at hentry
  obtain ⟨shape, hshape, hentry⟩ := Outcome.of_bind_eq_ok hentry
  have hbase := isName_fieldShape h hf hshape
  split at hentry
  next r hr =>
    split at hentry
    · cases hentry
    next hone =>
      cases hentry
      have htext : isName "String" = true := by decide
      exact ⟨h.myKey (List.mem_of_find?_eq_some hr) (by simpa using hone), htext⟩
  · obtain ⟨result, hresult, rfl⟩ := Option.map_eq_some_iff.1 (Except.ok.inj hentry)
    refine ⟨(h.fields f hf).name, isName_inputShape ?_ hresult⟩
    split <;> exact hbase

theorem isNamed_updateEntry (h : t.IsNamed) {f : Field} (hf : f ∈ t.fields) {e : Entry}
    (hentry : updateEntry c t f = .ok (some e)) : e.IsNamed := by
  unfold updateEntry at hentry
  obtain ⟨shape, hshape, hentry⟩ := Outcome.of_bind_eq_ok hentry
  have hbase := isName_fieldShape h hf hshape
  split at hentry
  next r hr =>
    split at hentry
    · cases hentry
    next hone =>
      cases hentry
      exact Entry.isNamed_plain
        (h.myKey (List.mem_of_find?_eq_some hr) (by simpa using hone)) (by decide)
  · split at hentry
    · cases hentry
      exact ⟨(h.fields f hf).name, hbase⟩
    · obtain ⟨result, hresult, rfl⟩ := Option.map_eq_some_iff.1 (Except.ok.inj hentry)
      have hoptional : isName shape.optional.base = true := hbase
      exact ⟨(h.fields f hf).name, isName_inputShape hoptional hresult⟩

/-! ### Inputs -/

/-- A list of entries made of names, one at least. -/
def IsNamedList (es : List Entry) : Prop := es ≠ [] ∧ ∀ e ∈ es, e.IsNamed

theorem Key.IsNamed.partition {key : Key} (h : key.IsNamed) : isName key.partition = true :=
  h.fields key.partition List.mem_cons_self

/-- The primary key gives names, also if it is the default. -/
theorem isNamed_primaryKey (h : t.IsNamed) : t.primaryKey.IsNamed := by
  unfold Table.primaryKey
  cases hfound : t.keys.find? (·.isPrimary) with
  | none => exact ⟨by decide, by decide, by decide⟩
  | some key => exact h.keys key (List.mem_of_find?_eq_some hfound)

/-- The entry of a field of the primary key. -/
theorem IsKeyEntry.isNamed {e : Entry} (he : IsKeyEntry t e) (h : t.IsNamed) : e.IsNamed :=
  ⟨(isNamed_primaryKey h).fields e.name he.1, isName_keyFieldType h he.2⟩

theorem isNamedList_keyEntriesOf (h : t.IsNamed) {es : List Entry}
    (hentries : keyEntriesOf t = .ok es) : IsNamedList es :=
  ⟨keyEntriesOf_ne_nil hentries, fun _ he => (isKeyEntry_of_keyEntriesOf hentries he).isNamed h⟩

theorem isNamedList_filterFields (h : t.IsNamed) {name : String} (hname : isName name = true)
    {es : List Entry} (hfields : filterFields c t name = .ok es) : IsNamedList es := by
  refine ⟨filterFields_ne_nil hfields, fun e he => ?_⟩
  rcases of_mem_filterFields hfields he with ⟨f, hf, hentry⟩ | ⟨key, hkey, rfl⟩ | hword
  · exact isNamed_filterEntry h hf hentry
  · exact Entry.isNamed_plain (h.implied key hkey) (by decide)
  · simp only [List.mem_cons, List.not_mem_nil, or_false] at hword
    rcases hword with rfl | rfl | rfl
    · exact Entry.isNamed_list (by decide) hname
    · exact Entry.isNamed_list (by decide) hname
    · exact Entry.isNamed_plain (by decide) hname

theorem isNamedList_createFields (h : t.IsNamed) {es : List Entry}
    (hfields : createFields c t = .ok es) : IsNamedList es := by
  refine ⟨createFields_ne_nil hfields, fun e he => ?_⟩
  rcases of_mem_createFields hfields he with ⟨isGenerated, f, hf, hentry⟩ | ⟨key, hkey, rfl⟩ | hkey
  · exact isNamed_createEntry h hf hentry
  · exact Entry.isNamed_plain (h.implied key hkey) (by decide)
  · exact hkey.isNamed h

theorem isNamedList_updateFields (h : t.IsNamed) {es : List Entry}
    (hfields : updateFields c t = .ok es) : IsNamedList es := by
  refine ⟨updateFields_ne_nil hfields, fun e he => ?_⟩
  rcases of_mem_updateFields hfields he with ⟨f, hf, hentry⟩ | ⟨key, hkey, rfl⟩ | hkey
  · exact isNamed_updateEntry h hf hentry
  · exact Entry.isNamed_plain (h.implied key hkey) (by decide)
  · exact hkey.isNamed h

/-! ### Operations -/

theorem isName_openedTo {action : Access.Action} : ∀ d ∈ openedTo t action, isName d = true := by
  intro d hd
  obtain ⟨p, rfl⟩ := Catalog.exists_provider_of_annotation hd
  cases p <;> decide

theorem isName_connectionName {type : String} (htype : isName type = true) :
    isName (connectionName type) = true :=
  isName_join (isName_join (by decide) htype) (by decide)

theorem isName_filterName {type : String} (htype : isName type = true) :
    isName (filterName type) = true :=
  isName_join (isName_join (by decide) htype) (by decide)

theorem isName_conditionName {type : String} (htype : isName type = true) :
    isName (conditionName type) = true :=
  isName_join (isName_join (by decide) htype) (by decide)

theorem isNamed_mutation (h : t.IsNamed) (action : Access.Action) :
    (mutation t action).IsNamed := by
  have haction : isName action.text = true := by cases action <;> decide
  refine ⟨isName_join haction h.name, h.name, by simp [mutation], ?_, isName_openedTo⟩
  simp only [mutation, List.forall_mem_cons, List.not_mem_nil, false_implies, implies_true,
    and_true]
  exact ⟨Entry.isNamed_needed (by decide) (isName_inputName h.name action),
    Entry.isNamed_plain (by decide) (isName_conditionName h.name)⟩

theorem IsNamedList.input {name : String} {es : List Entry} (h : IsNamedList es)
    (hname : isName name = true) : (Declaration.input name es).IsNamed :=
  .input hname h.1 h.2

/-- **The declarations of the operations of a table are made of names.** -/
theorem isNamed_operationDeclarations (h : t.IsNamed) {ds : List Declaration}
    (hdeclarations : operationDeclarations c t = .ok ds) : ∀ d ∈ ds, d.IsNamed := by
  obtain ⟨key, condition, filter, create, update, hkey, hcondition, hfilter, hcreate, hupdate,
    rfl⟩ :=
    of_operationDeclarations hdeclarations
  have hkeyentries := isNamedList_keyEntriesOf h hkey
  have hconditionname := isName_conditionName h.name
  have hfiltername := isName_filterName h.name
  have htext : isName "String" = true := by decide
  have hwhole : isName "Int" = true := by decide
  have hget : (getOperation t key).IsNamed :=
    ⟨isName_join (by decide) h.name, h.name, hkeyentries.1, hkeyentries.2, isName_openedTo⟩
  have hlist : (listOperation t).IsNamed := by
    refine ⟨isName_join (isName_join (by decide) h.name) (by decide),
      isName_connectionName h.name, by simp [listOperation], ?_, isName_openedTo⟩
    simp only [listOperation, List.forall_mem_cons, List.not_mem_nil, false_implies, implies_true,
      and_true]
    exact ⟨Entry.isNamed_plain (by decide) hfiltername, Entry.isNamed_plain (by decide) hwhole,
      Entry.isNamed_plain (by decide) htext⟩
  simp only [List.forall_mem_cons, List.not_mem_nil, false_implies, implies_true, and_true]
  refine ⟨.extension (by decide) (by simp) ?_, .extension (by decide) (by simp [mutations]) ?_,
    .object (isName_connectionName h.name) (by simp) ?_,
    (isNamedList_filterFields h hconditionname hcondition).input hconditionname,
    (isNamedList_filterFields h hfiltername hfilter).input hfiltername,
    (isNamedList_createFields h hcreate).input (isName_inputName h.name _),
    (isNamedList_updateFields h hupdate).input (isName_inputName h.name _),
    hkeyentries.input (isName_inputName h.name _)⟩
  · simp only [List.forall_mem_cons, List.not_mem_nil, false_implies, implies_true, and_true]
    exact ⟨hget, hlist⟩
  · intro o ho
    obtain ⟨action, -, rfl⟩ := List.mem_map.1 ho
    exact isNamed_mutation h action
  · simp only [List.forall_mem_cons, List.not_mem_nil, false_implies, implies_true, and_true]
    exact ⟨Entry.isNamed_list (by decide) h.name, Entry.isNamed_plain (by decide) htext⟩

/-! ### Queries by key -/

theorem isName_queryName (h : t.IsNamed) {key : Key} (hkey : key ∈ t.queryKeys) :
    isName (queryName key) = true := by
  obtain ⟨hsecondary, hquery⟩ := List.mem_filter.1 hkey
  have hnamed := h.keys key (List.mem_filter.1 hsecondary).1
  obtain ⟨n, hn⟩ := Option.isSome_iff_exists.1 hquery
  have hfield : key.queryField = some n := (Option.filter_eq_some_iff.1 hn).1
  rw [queryName, hfield]
  exact hnamed.queryField n hn

/-- Names glued to one make a name. -/
theorem isName_glued {names : List String} (hsome : names ≠ [])
    (hnames : ∀ n ∈ names, isName n = true) : isName (Key.glued names) = true := by
  cases names with
  | nil => exact absurd rfl hsome
  | cons first rest =>
    rw [List.forall_mem_cons] at hnames
    refine isName_append hnames.1 ?_
    intro ch hch
    rw [String.toList_join, List.flatMap_map, List.mem_flatMap] at hch
    obtain ⟨n, hn, hch⟩ := hch
    exact continuesName_upperFirst (hnames.2 n hn) ch hch

theorem isName_compositeStem (h : t.IsNamed) {key : Key} (hkey : key.IsNamed) :
    isName (compositeStem t key) = true := by
  refine isName_append (isName_join (by decide) h.name) ?_
  cases hname : key.name with
  | none => exact fun _ hch => by cases hch
  | some n =>
    by_cases hempty : n = ""
    · subst hempty
      exact fun _ hch => by cases hch
    · refine continuesName_upperFirst (hkey.name n ?_)
      rw [present, hname]
      simp [hempty]

theorem isNamed_compositeInputs (h : t.IsNamed) {key : Key} (hkey : key.IsNamed)
    (hsome : key.sortFields ≠ []) {ds : List Declaration}
    (hinputs : compositeInputs t key = .ok ds) : ∀ d ∈ ds, d.IsNamed := by
  unfold compositeInputs at hinputs
  obtain ⟨parts, hparts, hinputs⟩ := Outcome.of_bind_eq_ok hinputs
  cases hinputs
  have hstem := isName_compositeStem h hkey
  have hcomposite : isName (compositeKeyName t key) = true := isName_join hstem (by decide)
  have hoperators : ∀ o ∈ compositeOperators, isName o = true := by decide
  simp only [List.forall_mem_cons, List.not_mem_nil, false_implies, implies_true, and_true]
  refine ⟨.input (isName_join hstem (by decide)) (by simp) ?_, .input hcomposite ?_ ?_⟩
  · intro e he
    rcases List.mem_append.1 he with he | he
    · obtain ⟨o, ho, rfl⟩ := List.mem_map.1 he
      exact Entry.isNamed_plain (hoperators o ho) hcomposite
    · simp only [List.mem_cons, List.not_mem_nil, or_false] at he
      rcases he with rfl | rfl
      · exact Entry.isNamed_list (by decide) hcomposite
      · exact Entry.isNamed_plain (by decide) hcomposite
  · rintro rfl
    have hlength := Outcome.length_of_mapM_eq_ok hparts
    exact hsome (List.length_eq_zero_iff.1 hlength.symm)
  · intro e he
    obtain ⟨name, hname, hentry⟩ := Outcome.exists_of_mem_mapM hparts he
    obtain ⟨base, hbase, hentry⟩ := Outcome.of_bind_eq_ok hentry
    cases hentry
    exact Entry.isNamed_plain (hkey.fields name (List.mem_cons_of_mem _ hname))
      (isName_keyFieldType h hbase)

theorem isName_sortArgumentType (h : t.IsNamed) {key : Key} (hkey : key.IsNamed) {type : String}
    (htype : sortArgumentType? t key = .ok (some type)) :
    isName type = true ∧ key.sortFields ≠ [] := by
  unfold sortArgumentType? at htype
  split at htype
  · cases htype
  next field hsort =>
    obtain ⟨base, hbase, htype⟩ := Outcome.of_bind_eq_ok htype
    cases htype
    exact ⟨of_lookup_getD (P := fun n => isName n = true) (by decide)
      (by decide) base, by simp [hsort]⟩
  next hnone hsingle =>
    cases htype
    exact ⟨isName_join (isName_compositeStem h hkey) (by decide), hnone⟩

theorem isNamed_queryOperation (h : t.IsNamed) {key : Key} (hkey : key ∈ t.queryKeys)
    {o : Operation} (hoperation : queryOperation t key = .ok o) : o.IsNamed := by
  have hnamed := h.keys key (List.mem_filter.1 (List.mem_filter.1 hkey).1).1
  unfold queryOperation at hoperation
  obtain ⟨base, hbase, hoperation⟩ := Outcome.of_bind_eq_ok hoperation
  obtain ⟨sort, hsort, hoperation⟩ := Outcome.of_bind_eq_ok hoperation
  cases hoperation
  refine ⟨isName_queryName h hkey, isName_connectionName h.name, by simp, ?_, isName_openedTo⟩
  intro e he
  simp only [List.cons_append, List.mem_cons, List.mem_append, List.not_mem_nil, or_false] at he
  rcases he with rfl | he | rfl | rfl | rfl | rfl
  · exact Entry.isNamed_plain (hnamed.fields _ List.mem_cons_self) (isName_keyFieldType h hbase)
  · rw [Option.mem_toList] at he
    obtain ⟨type, rfl, rfl⟩ := Option.map_eq_some_iff.1 he
    obtain ⟨htype, hsome⟩ := isName_sortArgumentType h hnamed hsort
    refine Entry.isNamed_plain ?_ htype
    rw [Key.sortArgument?, if_neg (by simpa using hsome)]
    exact isName_glued hsome fun n hn => hnamed.fields n (List.mem_cons_of_mem _ hn)
  · exact Entry.isNamed_plain (by decide) (by decide)
  · exact Entry.isNamed_plain (by decide) (isName_filterName h.name)
  · exact Entry.isNamed_plain (by decide) (by decide)
  · exact Entry.isNamed_plain (by decide) (by decide)

/-- **The declarations of a query by key are made of names.** -/
theorem isNamed_queryDeclarations (h : t.IsNamed) {key : Key} (hkey : key ∈ t.queryKeys)
    {ds : List Declaration} (hdeclarations : queryDeclarations t key = .ok ds) :
    ∀ d ∈ ds, d.IsNamed := by
  have hnamed := h.keys key (List.mem_filter.1 (List.mem_filter.1 hkey).1).1
  obtain ⟨o, inputs, rfl, hoperation, hinputs⟩ := of_queryDeclarations hdeclarations
  have hextension : (Declaration.extension "Query" [o]).IsNamed := by
    refine .extension (by decide) (by simp) ?_
    intro other hother
    rw [List.mem_singleton.1 hother]
    exact isNamed_queryOperation h hkey hoperation
  refine List.forall_mem_cons.2 ⟨hextension, ?_⟩
  rcases hinputs with ⟨hcomposite, hinputs⟩ | ⟨-, rfl⟩
  · have hsome : key.sortFields ≠ [] := by
      intro hnone
      rw [Key.isComposite, hnone] at hcomposite
      simp at hcomposite
    exact isNamed_compositeInputs h hnamed hsome hinputs
  · exact nofun

/-! ### Shared declarations -/

/-- All types that the search has met have names of the language. -/
structure TypesInUse.IsNamed (met : TypesInUse) : Prop where
  enums : ∀ n ∈ met.enums, isName n = true
  objects : ∀ n ∈ met.objects, isName n = true

theorem isName_baseTypes {fields : List Field} (hfields : ∀ f ∈ fields, f.IsNamed)
    {types : List String} (h : baseTypes fields = .ok types) : ∀ n ∈ types, isName n = true := by
  intro n hn
  obtain ⟨f, hf, hbase⟩ := Outcome.exists_of_mem_mapM h hn
  obtain ⟨shape, hshape, hbase⟩ := Outcome.of_bind_eq_ok hbase
  cases hbase
  exact Catalog.isName_base_of_shapeOf (hfields f hf).base hshape

/-- The fields of the object types of a document. -/
theorem isNamed_objectType (hdocument : c.document.IsNamed) {name : String} {o : ObjectType}
    (h : c.objectType? name = some o) : ∀ f ∈ o.fields, f.IsNamed := by
  have hmem := List.mem_of_find?_eq_some h
  unfold Document.objects at hmem
  obtain ⟨d, hd, hobject⟩ := List.mem_filterMap.1 hmem
  have hnamed := hdocument d hd
  cases d with
  | object body =>
    cases hobject
    exact hnamed.2
  | _ => cases hobject

/-- **A search for types meets names only**, since `visit` takes them from the fields of the
document. -/
theorem isNamed_visit (hdocument : c.document.IsNamed) {pending : List String}
    {met result : TypesInUse} (hpending : ∀ n ∈ pending, isName n = true) (hmet : met.IsNamed)
    (h : visit c pending met = .ok result) : result.IsNamed := by
  fun_induction visit c pending met with
  | case1 met =>
    cases h
    exact hmet
  | case2 met name rest hcategory ih =>
    rw [List.forall_mem_cons] at hpending
    refine ih hpending.2 ⟨?_, hmet.objects⟩ h
    intro n hn
    unfold addNew at hn
    split at hn
    · exact hmet.enums n hn
    · rcases List.mem_append.1 hn with hn | hn
      · exact hmet.enums n hn
      · rw [List.mem_singleton.1 hn]
        exact hpending.1
  | case3 met name rest hcategory halready ih =>
    exact ih (List.forall_mem_cons.1 hpending).2 hmet h
  | case4 met name rest hcategory hnew hfound ih =>
    exact ih (List.forall_mem_cons.1 hpending).2 hmet h
  | case5 => cases h
  | case6 met name rest hcategory hnew o hfound more hlisted ih =>
    rw [List.forall_mem_cons] at hpending
    refine ih ?_ ⟨hmet.enums, ?_⟩ h
    · intro n hn
      rcases List.mem_append.1 hn with hn | hn
      · exact hpending.2 n hn
      · exact isName_baseTypes (isNamed_objectType hdocument hfound) hlisted n hn
    · intro n hn
      rcases List.mem_append.1 hn with hn | hn
      · exact hmet.objects n hn
      · rw [List.mem_singleton.1 hn]
        exact hpending.1
  | case7 met name rest henum hobject ih =>
    exact ih (List.forall_mem_cons.1 hpending).2 hmet h

theorem isNamed_typesInUse (hdocument : c.document.IsNamed) (htables : c.IsNamed)
    {used : TypesInUse} (h : typesInUse c = .ok used) : used.IsNamed := by
  unfold typesInUse at h
  obtain ⟨types, htypes, h⟩ := Outcome.of_bind_eq_ok h
  have hfields : ∀ f ∈ c.tables.flatMap plainFields, f.IsNamed := by
    intro f hf
    obtain ⟨t, ht, hf⟩ := List.mem_flatMap.1 hf
    exact (htables t ht).fields f (List.mem_filter.1 hf).1
  have hempty : TypesInUse.IsNamed {} := by
    constructor
    · intro n hn
      cases hn
    · intro n hn
      cases hn
  exact isNamed_visit hdocument (isName_baseTypes hfields htypes) hempty h

/-- The input that mirrors an object type. -/
theorem isNamed_mirror (hdocument : c.document.IsNamed) {name : String} (hname : isName name = true)
    {d : Declaration} (h : mirror? c name = .ok (some d)) : d.IsNamed := by
  obtain ⟨fields, hfields, hsome, rfl⟩ := of_mirror?_eq_some h
  refine .input (isName_join hname (by decide)) hsome fun e he => ?_
  obtain ⟨o, hobject, f, hf, hentry⟩ := of_mem_mirrorFields hfields he
  have hfield := isNamed_objectType hdocument hobject f hf
  unfold mirrorEntry at hentry
  obtain ⟨shape, hshape, hentry⟩ := Outcome.of_bind_eq_ok hentry
  have hbase := Catalog.isName_base_of_shapeOf hfield.base hshape
  split at hentry
  · cases hentry
  · cases hentry
  · cases hentry
    exact ⟨hfield.name, isName_join hbase (by decide)⟩
  · cases hentry
    exact ⟨hfield.name, hbase⟩
  · cases hentry
    exact ⟨hfield.name, hbase⟩

theorem isNamed_enumFilter {name : String} (hname : isName name = true) :
    (enumFilter name).IsNamed := by
  refine .input (isName_join (isName_join (by decide) hname) (by decide)) (by simp) ?_
  simp only [List.forall_mem_cons, List.not_mem_nil, false_implies, implies_true, and_true]
  exact ⟨Entry.isNamed_plain (by decide) hname, Entry.isNamed_plain (by decide) hname⟩

instance (e : Entry) : Decidable e.IsNamed :=
  decidable_of_iff (isName e.name = true ∧ isName e.type.base = true)
    ⟨fun h => ⟨h.1, h.2⟩, fun h => ⟨h.name, h.base⟩⟩

instance (o : Operation) : Decidable o.IsNamed :=
  decidable_of_iff (isName o.name = true ∧ isName o.type.base = true ∧ o.arguments ≠ [] ∧
      (∀ e ∈ o.arguments, e.IsNamed) ∧ ∀ d ∈ o.directives, isName d = true)
    ⟨fun h => ⟨h.1, h.2.1, h.2.2.1, h.2.2.2.1, h.2.2.2.2⟩,
      fun h => ⟨h.name, h.base, h.someArguments, h.arguments, h.directives⟩⟩

instance : (d : Declaration) → Decidable d.IsNamed
  | .extension root operations =>
    decidable_of_iff (isName root = true ∧ operations ≠ [] ∧ ∀ o ∈ operations, o.IsNamed)
      ⟨fun h => .extension h.1 h.2.1 h.2.2,
        fun | .extension hname hsome hall => ⟨hname, hsome, hall⟩⟩
  | .root name => decidable_of_iff (isName name = true) ⟨.root, fun | .root hname => hname⟩
  | .object name fields =>
    decidable_of_iff (isName name = true ∧ fields ≠ [] ∧ ∀ e ∈ fields, e.IsNamed)
      ⟨fun h => .object h.1 h.2.1 h.2.2, fun | .object hname hsome hall => ⟨hname, hsome, hall⟩⟩
  | .input name fields =>
    decidable_of_iff (isName name = true ∧ fields ≠ [] ∧ ∀ e ∈ fields, e.IsNamed)
      ⟨fun h => .input h.1 h.2.1 h.2.2, fun | .input hname hsome hall => ⟨hname, hsome, hall⟩⟩
  | .enum name values =>
    decidable_of_iff (isName name = true ∧ values ≠ [] ∧
        ∀ v ∈ values, isName v = true ∧ v ∉ Reader.reservedValues)
      ⟨fun h => .enum h.1 h.2.1 h.2.2, fun | .enum hname hsome hall => ⟨hname, hsome, hall⟩⟩

theorem isNamed_common : ∀ d ∈ commonDeclarations, d.IsNamed := by decide +kernel

/-- **The shared declarations are made of names.** -/
theorem isNamed_sharedDeclarations (hdocument : c.document.IsNamed) (htables : c.IsNamed)
    {ds : List Declaration} (h : sharedDeclarations c = .ok ds) : ∀ d ∈ ds, d.IsNamed := by
  obtain ⟨used, hused, -, hmem⟩ := mem_sharedDeclarations h
  have hnames := isNamed_typesInUse hdocument htables hused
  intro d hd
  rcases (hmem d).1 hd with ⟨root, hroot, -, rfl⟩ | hd | ⟨n, hn, rfl⟩ | ⟨n, hn, hmirror⟩
  · have hroots : ∀ n ∈ ["Query", "Mutation"], isName n = true := by decide
    exact .root (hroots root hroot)
  · exact isNamed_common d hd
  · exact isNamed_enumFilter (hnames.enums n hn)
  · exact isNamed_mirror hdocument (hnames.objects n hn) hmirror

end Surface

/-- **All generated documents are made of names** (`Declaration.IsNamed`). -/
theorem Catalog.Generates.isNamed {c : Catalog} (hdocument : c.document.IsNamed)
    (htables : c.IsNamed) {location : String} {ds : List Surface.Declaration}
    (h : c.Generates location ds) : ∀ d ∈ ds, d.IsNamed := by
  cases h with
  | operations htable hdeclarations =>
    exact Surface.isNamed_operationDeclarations (htables _ htable) hdeclarations
  | query htable hkey hdeclarations =>
    exact Surface.isNamed_queryDeclarations (htables _ htable) hkey hdeclarations
  | shared _ hdeclarations =>
    exact Surface.isNamed_sharedDeclarations hdocument htables hdeclarations

end SchemaLoom
