/-
Generated declarations in which names are apart.

Names that are given stand beside words in generated declarations: a filter joins the values of a
table by words, and a query by key takes what every listing takes besides the fields of the key.
No word is kept from being a name.  So a name is declared twice in just two places: in the
filters of a table that has a value of the name of a word (`FiltersWord`), and in a query by a
key one of whose arguments has the name of another (`DoublesArgument`).

For each kind of generated document there is an equivalence: it declares every name once just if
the table, or the key, has none of the two.  The shared declarations always do
(`namesApart_sharedDeclarations`).
-/
import Mathlib.Data.List.Nodup
import SchemaLoom.Proofs.Surface.Declaration
import SchemaLoom.Proofs.Surface.StoredNames

namespace SchemaLoom

namespace Sdl

/-- The fields of `body` have names of their own, and so have the arguments of each of them. -/
def ObjectType.NamesApart (body : ObjectType) : Prop :=
  (body.fields.map (·.name)).Nodup ∧ ∀ f ∈ body.fields, (f.arguments.map (·.name)).Nodup

/-- The definition declares every field of a type, and every argument of a field, once. -/
def Definition.NamesApart : Definition → Prop
  | .object body | .interface body | .objectExtension body | .interfaceExtension body =>
    body.NamesApart
  | .input body | .inputExtension body => (body.fields.map (·.name)).Nodup
  | _ => True

end Sdl

namespace Surface

variable {c : Catalog} {t : Table} {key : Key} {ds : List Declaration}

/-! ### Declarations -/

/-- The operations have names of their own, and so have the arguments of each of them. -/
def OperationsApart (operations : List Operation) : Prop :=
  (operations.map (·.name)).Nodup ∧ ∀ o ∈ operations, (o.arguments.map (·.name)).Nodup

/-- The entries have names of their own. -/
def EntriesApart (es : List Entry) : Prop := (es.map (·.name)).Nodup

/-- The declaration has names apart. -/
def Declaration.NamesApart : Declaration → Prop
  | extension _ operations => OperationsApart operations
  | object _ fields | input _ fields => EntriesApart fields
  | root _ | enum _ _ => True

instance : (d : Declaration) → Decidable d.NamesApart
  | .extension _ _ => inferInstanceAs (Decidable (_ ∧ _))
  | .object _ _ | .input _ _ => inferInstanceAs (Decidable (List.Nodup _))
  | .root _ | .enum _ _ => isTrue trivial

/-- A declaration says as much as the definition that it stands for. -/
theorem Declaration.namesApart_toDefinition (d : Declaration) :
    d.toDefinition.NamesApart ↔ d.NamesApart := by
  cases d with
  | extension root operations =>
    simp [toDefinition, Sdl.Definition.NamesApart, Sdl.ObjectType.NamesApart, NamesApart,
      OperationsApart, Sdl.Reader.plainObject, Operation.toField, Sdl.Reader.plainField,
      Function.comp_def, Sdl.Reader.plainInput, Entry.pair]
  | root name =>
    simp [toDefinition, Sdl.Definition.NamesApart, Sdl.ObjectType.NamesApart, NamesApart,
      Sdl.Reader.plainObject]
  | object name fields =>
    simp [toDefinition, Sdl.Definition.NamesApart, Sdl.ObjectType.NamesApart, NamesApart,
      EntriesApart, Sdl.Reader.plainObject, Entry.toField, Sdl.Reader.plainField, Function.comp_def]
  | input name fields =>
    simp [toDefinition, Sdl.Definition.NamesApart, NamesApart, EntriesApart,
      Sdl.Reader.plainInputType, Function.comp_def, Sdl.Reader.plainInput, Entry.pair]
  | enum name values => simp [toDefinition, Sdl.Definition.NamesApart, NamesApart]

/-! ### Operations of a table

The names of all operations and inputs of a table are made of its name with different words around
it.  Only within a filter can a field have the name of a word (`FiltersWord`).
-/

/-- The table `t` has a value of the name of a word that joins filters. -/
def FiltersWord (c : Catalog) (t : Table) : Prop := ∃ word ∈ filterWords, FiltersValue c t word

/-- The names of a filter are apart just if no value has the name of a word. -/
theorem entriesApart_filterFields_iff {input : String} {es : List Entry}
    (h : filterFields c t input = .ok es) : EntriesApart es ↔ ¬ FiltersWord c t := by
  obtain ⟨values, hnames, hnodup, hvalues⟩ := exists_values_of_filterFields h
  have hwords : filterWords.Nodup := by decide
  rw [EntriesApart, hnames, List.nodup_append]
  constructor
  · rintro ⟨-, -, hapart⟩ ⟨word, hword, hvalue⟩
    exact hapart word ((hvalues word).2 hvalue) word hword rfl
  · intro hnone
    refine ⟨hnodup, hwords, fun name hname word hword hsame => ?_⟩
    subst hsame
    exact hnone ⟨name, hword, (hvalues name).1 hname⟩

theorem operationsApart_queries {es : List Entry} (h : EntriesApart es) :
    OperationsApart [getOperation t es, listOperation t] := by
  have hother : getName t ≠ listName t := fun hsame => by
    simpa [getName, listName] using congrArg (·.toList.head?) hsame
  constructor
  · simpa [getOperation, listOperation] using hother
  · simp only [List.forall_mem_cons, List.not_mem_nil, false_implies, implies_true, and_true]
    exact ⟨h, by simp [listOperation, Entry.plain]⟩

theorem operationsApart_mutations (t : Table) : OperationsApart (mutations.map (mutation t)) := by
  constructor
  -- The names begin differently, whatever the table is called.
  · have hheads : ((mutations.map (mutation t)).map (·.name)).map (·.toList.head?)
        = [some 'c', some 'u', some 'd'] := by
      simp [mutations, mutation, mutationName, Access.Action.text]
    exact List.Nodup.of_map (·.toList.head?) (hheads ▸ by decide)
  · intro o ho
    obtain ⟨action, -, rfl⟩ := List.mem_map.1 ho
    simp [mutation, Entry.needed, Entry.plain]

/-- **The document of a table declares every name once, unless a value has the name of a word
(`FiltersWord`).** -/
theorem namesApart_operationDeclarations_iff (hkey : t.primaryKey.fields.Nodup)
    (h : operationDeclarations c t = .ok ds) :
    (∀ d ∈ ds, d.NamesApart) ↔ ¬ FiltersWord c t := by
  obtain ⟨keyEntries, condition, filter, create, update, hentries, hcondition, hfilter, hcreate,
    hupdate, rfl⟩ := of_operationDeclarations h
  have hkeyapart : EntriesApart keyEntries := by
    rw [EntriesApart, names_of_keyEntriesOf hentries]
    exact hkey
  have hconnection : EntriesApart [.list "items" t.name, .plain "nextToken" "String"] := by
    simp [EntriesApart, Entry.list, Entry.plain]
  simp only [List.forall_mem_cons, List.not_mem_nil, false_implies, implies_true, and_true,
    Declaration.NamesApart, operationsApart_queries hkeyapart, operationsApart_mutations t,
    hconnection, hkeyapart, entriesApart_filterFields_iff hcondition,
    entriesApart_filterFields_iff hfilter, true_and, and_self_left, and_iff_left_iff_imp]
  exact fun _ => ⟨nodup_names_createFields hcreate, nodup_names_updateFields hupdate⟩

/-! ### Queries by key -/

/-- A query by `key` takes two arguments of one name. -/
inductive DoublesArgument (key : Key) : Prop where
  | partition (h : key.partition ∈ listingArguments)
  | sort {argument : String} (h : key.sortArgument? = some argument)
    (hlisting : argument ∈ listingArguments)
  /-- The glued names of the sort fields are the name of the partition. -/
  | glued (h : key.sortArgument? = some key.partition)

theorem nodup_arguments_iff : (keyQueryArguments key).Nodup ↔ ¬ DoublesArgument key := by
  unfold keyQueryArguments
  have hlisting : listingArguments.Nodup := by decide
  constructor
  · rintro hnodup (hpartition | ⟨hsort, hargument⟩ | hglued)
    · exact (List.nodup_append.1 hnodup).2.2 _ List.mem_cons_self _ hpartition rfl
    · exact (List.nodup_append.1 hnodup).2.2 _ (by simp [hsort]) _ hargument rfl
    · exact (List.nodup_cons.1 hnodup).1 (by simp [hglued])
  · intro hapart
    cases hsort : key.sortArgument? with
    | none => exact List.nodup_cons.2 ⟨fun hpartition => hapart (.partition hpartition), hlisting⟩
    | some argument =>
      have hpartition : key.partition ∉ argument :: listingArguments := by
        rintro (_ | ⟨_, hlisted⟩)
        · exact hapart (.glued hsort)
        · exact hapart (.partition hlisted)
      have hargument : argument ∉ listingArguments := fun hlisted => hapart (.sort hsort hlisted)
      exact List.nodup_cons.2 ⟨hpartition, List.nodup_cons.2 ⟨hargument, hlisting⟩⟩

/-- The inputs of a composite key declare every name once. -/
theorem namesApart_compositeInputs (hkey : key.sortFields.Nodup)
    (h : compositeInputs t key = .ok ds) : ∀ d ∈ ds, d.NamesApart := by
  obtain ⟨parts, rfl, hnames⟩ := of_compositeInputs h
  simp only [List.forall_mem_cons, List.not_mem_nil, false_implies, implies_true, and_true,
    Declaration.NamesApart, EntriesApart]
  exact ⟨by simp [compositeOperators, Entry.plain, Entry.list], hnames ▸ hkey⟩

/-- **The document of a query by a key declares every name once, unless the query takes two
arguments of one name (`DoublesArgument`).** -/
theorem namesApart_queryDeclarations_iff (hkey : key.fields.Nodup)
    (h : queryDeclarations t key = .ok ds) : (∀ d ∈ ds, d.NamesApart) ↔ ¬ DoublesArgument key := by
  obtain ⟨o, inputs, rfl, hoperation, hinputs⟩ := of_queryDeclarations h
  have hapart : ∀ d ∈ inputs, d.NamesApart := by
    rcases hinputs with ⟨-, hinputs⟩ | ⟨-, rfl⟩
    · exact namesApart_compositeInputs (List.nodup_cons.1 hkey).2 hinputs
    · simp
  rw [List.forall_mem_cons, and_iff_left hapart, ← nodup_arguments_iff,
    ← (of_queryOperation hoperation).2]
  simp [Declaration.NamesApart, OperationsApart]

/-! ### Shared declarations -/

/-- What is made of fields under their own names has some of their names, in their order. -/
theorem sublist_names_of_mapM {make : Sdl.Field → Except Fault (Option Entry)}
    (hmake : ∀ f e, make f = .ok (some e) → e.name = f.name) {fields : List Sdl.Field}
    {made : List (Option Entry)} (h : fields.mapM make = .ok made) :
    ((made.filterMap id).map (·.name)).Sublist (fields.map (·.name)) := by
  induction fields generalizing made with
  | nil =>
    cases h
    exact List.Sublist.refl _
  | cons f fields ih =>
    rw [List.mapM_cons] at h
    obtain ⟨first, hfirst, h⟩ := Outcome.of_bind_eq_ok h
    obtain ⟨rest, hrest, h⟩ := Outcome.of_bind_eq_ok h
    cases h
    cases first with
    | none => exact (ih hrest).cons _
    | some e =>
      show (e.name :: (rest.filterMap id).map (·.name)).Sublist (f.name :: fields.map (·.name))
      rw [hmake f e hfirst]
      exact (ih hrest).cons_cons _

theorem name_of_mirrorEntry {f : Sdl.Field} {e : Entry} (h : mirrorEntry c f = .ok (some e)) :
    e.name = f.name := by
  unfold mirrorEntry at h
  obtain ⟨shape, -, h⟩ := Outcome.of_bind_eq_ok h
  split at h <;> cases h <;> rfl

/-- The input that mirrors an object type declares some of its fields. -/
theorem entriesApart_mirrorFields (hfields : Catalog.FieldsAreDistinct c.document) {name : String}
    {es : List Entry} (h : mirrorFields c name = .ok es) : EntriesApart es := by
  unfold mirrorFields at h
  obtain ⟨made, hmade, h⟩ := Outcome.of_bind_eq_ok h
  cases h
  refine (sublist_names_of_mapM (fun f e => name_of_mirrorEntry) hmade).nodup ?_
  cases hobject : c.objectType? name with
  | none => exact List.nodup_nil
  | some o => exact hfields o (List.mem_of_find?_eq_some hobject)

theorem namesApart_common : ∀ d ∈ commonDeclarations, d.NamesApart := by decide +kernel

/-- **The document that all tables share declares every name once.** -/
theorem namesApart_sharedDeclarations (hfields : Catalog.FieldsAreDistinct c.document)
    (h : sharedDeclarations c = .ok ds) : ∀ d ∈ ds, d.NamesApart := by
  obtain ⟨used, -, -, hmem⟩ := mem_sharedDeclarations h
  intro d hd
  rcases (hmem d).1 hd with ⟨root, -, -, rfl⟩ | hcommon | ⟨name, -, rfl⟩ | ⟨name, -, hmirror⟩
  · trivial
  · exact namesApart_common d hcommon
  · simp [enumFilter, Declaration.NamesApart, EntriesApart, Entry.plain]
  · obtain ⟨fields, hmade, -, rfl⟩ := of_mirror?_eq_some hmirror
    exact entriesApart_mirrorFields hfields hmade

end Surface

end SchemaLoom
