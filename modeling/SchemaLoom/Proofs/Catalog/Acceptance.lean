/-
Which catalogs can be emitted.

Emitting fails for a type without a shape and for nothing else: an index without a name cannot
come up, since a relation belongs to another one by its name.  So a catalog whose fields have
names of their own is emitted exactly if all types that its tables use have shapes
(`exists_emit_iff`).

The module goes through what is emitted from the inside out, a lemma `exists_…` for each function
that may fail: what a table answers about its keys, its storage, its operations, its queries by
key, and what all tables share.  Each of them needs that the types of fields have shapes, and
only the shared declarations look at every type in use, so it is they that give the converse.
-/
import SchemaLoom.Proofs.Catalog.Gathering
import SchemaLoom.Proofs.Catalog.Settling
import SchemaLoom.Proofs.Surface.TypesInUse

namespace SchemaLoom

open Artifact Surface

/-! ### Tables -/

namespace Table

variable {t : Table}

theorem field?_eq_some {name : String} {f : Sdl.Field} (h : t.field? name = some f) :
    f ∈ t.fields ∧ f.name = name :=
  ⟨List.mem_of_find?_eq_some h, by simpa using List.find?_some h⟩

theorem exists_fieldShape? (h : IsShaped t.fields) (name : String) :
    ∃ shape, t.fieldShape? name = .ok shape := by
  unfold fieldShape?
  cases hfield : t.field? name with
  | none => exact ⟨none, rfl⟩
  | some f =>
    obtain ⟨shape, hshape⟩ := h f (field?_eq_some hfield).1
    exact ⟨some shape, by simp only [hshape]; rfl⟩

theorem exists_keyFieldType (h : IsShaped t.fields) (name : String) :
    ∃ base, t.keyFieldType name = .ok base := by
  refine Outcome.exists_bind (exists_fieldShape? h name) fun shape => ?_
  cases shape <;> exact ⟨_, rfl⟩

theorem exists_attributeType (h : IsShaped t.fields) (name : String) :
    ∃ letter, t.attributeType name = .ok letter :=
  Outcome.exists_bind (exists_fieldShape? h name) fun _ => ⟨_, rfl⟩

theorem exists_secondaryIndexes (h : t.EndsAreNamed) :
    ∃ indexes, t.secondaryIndexes = .ok indexes := by
  refine Outcome.exists_bind (Outcome.exists_mapM fun r hr => ?_) fun _ => ⟨_, rfl⟩
  obtain ⟨name, hname⟩ := Option.isSome_iff_exists.1 (h r hr)
  exact ⟨_, by rw [relationIndex, hname]⟩

theorem exists_keyAttributes (h : t.EndsAreNamed) : ∃ names, t.keyAttributes = .ok names :=
  Outcome.exists_bind (exists_secondaryIndexes h) fun _ => ⟨_, rfl⟩

end Table

namespace Surface

variable {c : Catalog} {t : Table}

/-! ### Storage -/

theorem exists_attributeDefinition (h : IsShaped t.fields) (name : String) :
    ∃ definition, attributeDefinition t name = .ok definition :=
  Outcome.exists_bind (Table.exists_attributeType h name) fun _ => ⟨_, rfl⟩

theorem exists_storageFragments (h : IsShaped t.fields) (hends : t.EndsAreNamed) :
    ∃ fs, storageFragments t = .ok fs := by
  have hdeclaration : ∃ tree, tableDeclaration t = .ok tree :=
    Outcome.exists_bind (Outcome.exists_mapM fun name _ => exists_attributeDefinition h name)
      fun _ => ⟨_, rfl⟩
  refine Outcome.exists_bind hdeclaration fun _ => ?_
  refine Outcome.exists_bind (Table.exists_keyAttributes hends) fun _ => ?_
  refine Outcome.exists_bind (Outcome.exists_mapM fun name _ => ?_) fun _ => ?_
  · exact Outcome.exists_bind (exists_attributeDefinition h name) fun _ => ⟨_, rfl⟩
  · exact Outcome.exists_bind (Table.exists_secondaryIndexes hends) fun _ => ⟨_, rfl⟩

/-! ### Operations

Each kind of entry needs the shapes of the fields that it is made from, and nothing else.  So all
builders succeed if the fields of the table have shapes.
-/

theorem exists_fieldShape (h : IsShaped t.fields) {f : Sdl.Field} (hf : f ∈ t.fields) :
    ∃ shape, fieldShape t f = .ok shape := by
  unfold fieldShape
  cases hfield : t.field? f.name with
  | none => exact h f hf
  | some g => exact h g (Table.field?_eq_some hfield).1

theorem mem_fields_of_stored {f : Sdl.Field} (h : f ∈ storedFields t) : f ∈ t.fields :=
  (List.mem_filter.1 h).1

theorem exists_keyEntriesOf (h : IsShaped t.fields) : ∃ entries, keyEntriesOf t = .ok entries :=
  Outcome.exists_mapM fun name _ =>
    Outcome.exists_bind (Table.exists_keyFieldType h name) fun _ => ⟨_, rfl⟩

theorem exists_generatesId (h : IsShaped t.fields) :
    ∃ isGenerated, generatesId t = .ok isGenerated :=
  Outcome.exists_bind (Table.exists_keyFieldType h _) fun _ => ⟨_, rfl⟩

theorem exists_filterFields (h : IsShaped t.fields) (name : String) :
    ∃ entries, filterFields c t name = .ok entries := by
  refine Outcome.exists_bind (Outcome.exists_mapM fun f hf => ?_) fun _ => ⟨_, rfl⟩
  unfold filterEntry
  cases t.relation? f.name with
  | some r => exact ⟨_, rfl⟩
  | none =>
    exact Outcome.exists_bind (exists_fieldShape h (mem_fields_of_stored hf)) fun _ => ⟨_, rfl⟩

theorem exists_createFields (h : IsShaped t.fields) :
    ∃ entries, createFields c t = .ok entries := by
  refine Outcome.exists_bind (exists_generatesId h) fun isGenerated => ?_
  refine Outcome.exists_bind (Outcome.exists_mapM fun f hf => ?_) fun _ => ?_
  · refine Outcome.exists_bind (exists_fieldShape h (mem_fields_of_stored hf)) fun shape => ?_
    cases t.relation? f.name <;> exact ⟨_, rfl⟩
  · refine Outcome.exists_bind (Outcome.exists_mapM fun name _ => ?_) fun _ => ⟨_, rfl⟩
    exact Outcome.exists_bind (Table.exists_keyFieldType h name) fun _ => ⟨_, rfl⟩

theorem exists_updateFields (h : IsShaped t.fields) :
    ∃ entries, updateFields c t = .ok entries := by
  refine Outcome.exists_bind (Outcome.exists_mapM fun f hf => ?_) fun _ => ?_
  · refine Outcome.exists_bind (exists_fieldShape h (mem_fields_of_stored hf)) fun shape => ?_
    cases t.relation? f.name <;> exact ⟨_, rfl⟩
  · exact Outcome.exists_bind (exists_keyEntriesOf h) fun _ => ⟨_, rfl⟩

theorem exists_operationDeclarations (h : IsShaped t.fields) :
    ∃ ds, operationDeclarations c t = .ok ds := by
  refine Outcome.exists_bind (exists_keyEntriesOf h) fun _ => ?_
  refine Outcome.exists_bind (exists_filterFields h _) fun _ => ?_
  refine Outcome.exists_bind (exists_filterFields h _) fun _ => ?_
  refine Outcome.exists_bind (exists_createFields h) fun _ => ?_
  refine Outcome.exists_bind (exists_updateFields h) fun _ => ?_
  exact Outcome.exists_bind (exists_keyEntriesOf h) fun _ => ⟨_, rfl⟩

theorem exists_operationFragments (h : IsShaped t.fields) :
    ∃ fs, (operationFragments c t).outcome = .ok fs := by
  unfold operationFragments
  rw [Report.outcome_bind, Report.outcome_lift]
  refine Outcome.exists_bind ?_ fun _ => ?_
  · exact Outcome.exists_bind (exists_operationDeclarations h) fun _ => ⟨_, rfl⟩
  · rw [Report.outcome_bind, Report.outcome_lift]
    refine Outcome.exists_bind ?_ fun _ => ⟨_, rfl⟩
    exact Outcome.exists_bind (exists_generatesId h) fun _ => ⟨_, rfl⟩

/-! ### Queries by key -/

theorem exists_queryFragments (h : IsShaped t.fields) (key : Key) :
    ∃ fs, queryFragments t key = .ok fs := by
  have hsort : ∃ type, sortArgumentType? t key = .ok type := by
    unfold sortArgumentType?
    split
    · exact ⟨_, rfl⟩
    next field _ => exact Outcome.exists_bind (Table.exists_keyFieldType h field) fun _ => ⟨_, rfl⟩
    · exact ⟨_, rfl⟩
  have hoperation : ∃ operation, queryOperation t key = .ok operation := by
    refine Outcome.exists_bind (Table.exists_keyFieldType h _) fun _ => ?_
    exact Outcome.exists_bind hsort fun _ => ⟨_, rfl⟩
  have hinputs : ∃ ds, compositeInputs t key = .ok ds := by
    refine Outcome.exists_bind (Outcome.exists_mapM fun name _ => ?_) fun _ => ⟨_, rfl⟩
    exact Outcome.exists_bind (Table.exists_keyFieldType h name) fun _ => ⟨_, rfl⟩
  have hdeclarations : ∃ ds, queryDeclarations t key = .ok ds := by
    refine Outcome.exists_bind hoperation fun _ => ?_
    by_cases hcomposite : key.isComposite = true
    · simp only [hcomposite, ↓reduceIte]
      exact Outcome.exists_bind hinputs fun _ => ⟨_, rfl⟩
    · simp only [hcomposite]
      exact ⟨_, rfl⟩
  refine Outcome.exists_bind ?_ fun _ => ⟨_, rfl⟩
  exact Outcome.exists_bind hdeclarations fun _ => ⟨_, rfl⟩

/-! ### Shared declarations

Mirrors of object types ask for the shapes of all their fields, so here success also says
something: all types in use have shapes (`exists_sharedFragments_iff`).
-/

theorem exists_mirror? {name : String}
    (h : ∀ o, c.objectType? name = some o → IsShaped o.fields) : ∃ d, mirror? c name = .ok d := by
  refine Outcome.exists_bind ?_ fun _ => ⟨_, rfl⟩
  refine Outcome.exists_bind (Outcome.exists_mapM fun f hf => ?_) fun _ => ⟨_, rfl⟩
  cases htype : c.objectType? name with
  | none =>
    rw [htype] at hf
    cases hf
  | some o =>
    rw [htype] at hf
    exact Outcome.exists_bind (h o htype f hf) fun _ => ⟨_, rfl⟩

/-- **Shared declarations can be made exactly if all types in use have shapes (`UsesShapes`).** -/
theorem exists_sharedFragments_iff :
    (∃ fs, sharedFragments c = .ok fs) ↔ UsesShapes c := by
  unfold sharedFragments
  cases htables : c.tables.isEmpty with
  | true =>
    have hnone : ∀ t, t ∉ c.tables := by simp [List.isEmpty_iff.1 htables]
    refine ⟨fun _ => ⟨fun t ht => absurd ht (hnone t), fun name o hused => ?_⟩, fun _ => ⟨_, rfl⟩⟩
    exfalso
    induction hused with
    | field htable _ _ => exact hnone _ htable
    | through _ _ _ _ _ ih => exact ih
  | false =>
    rw [← exists_typesInUse_iff, if_neg (by simp)]
    constructor
    · rintro ⟨fs, h⟩
      obtain ⟨schema, hschema, -⟩ := Outcome.of_map_eq_ok h
      obtain ⟨ds, hdeclarations, -⟩ := Outcome.of_map_eq_ok hschema
      obtain ⟨used, hused, -⟩ := Outcome.of_bind_eq_ok hdeclarations
      exact ⟨used, hused⟩
    · rintro ⟨used, hused⟩
      have hdeclarations : ∃ ds, sharedDeclarations c = .ok ds := by
        unfold sharedDeclarations
        simp only [hused, Outcome.ok_bind]
        refine Outcome.exists_bind (Outcome.exists_mapM fun name hname => ?_) fun _ => ⟨_, rfl⟩
        exact exists_mirror? fun o htype => isShaped_of_mem_objects hused hname htype
      obtain ⟨ds, hdeclarations⟩ := hdeclarations
      exact ⟨_, by rw [sharedSchema, hdeclarations]; rfl⟩

end Surface

/-! ### Catalogs

The converse goes field by field.  A field without a shape is met by the filter of its table,
whatever else the table has.
-/

namespace Catalog

variable {c : Catalog}

theorem exists_tableFragments {t : Table} (h : IsShaped t.fields) (hends : t.EndsAreNamed) :
    ∃ fs, (c.tableFragments t).outcome = .ok fs := by
  unfold tableFragments
  rw [Report.outcome_map, Report.outcome_mapM]
  have hparts : ∀ part ∈ t.parts, ∃ fs, (c.partFragments t part).outcome = .ok fs := by
    intro part _
    cases part with
    | storage => exact exists_storageFragments h hends
    | operations => exact exists_operationFragments h
    | query key => exact exists_queryFragments h key
    | relation r => exact ⟨_, rfl⟩
  obtain ⟨parts, hparts⟩ := Outcome.exists_mapM hparts
  exact ⟨_, by rw [hparts]; rfl⟩

/-- No object type of `document` has two fields of one name. -/
def FieldsAreDistinct (document : Sdl.Document) : Prop :=
  ∀ o ∈ document.objects, (o.fields.map (·.name)).Nodup

/-- A field of a relation has a shape, as long as fields can be told apart. -/
theorem Rooted.exists_shape (hrooted : c.Rooted)
    (htypes : (c.document.declarations.map (·.name)).Nodup)
    (hfields : FieldsAreDistinct c.document) {t : Table} (ht : t ∈ c.tables) {f : Sdl.Field}
    (hf : f ∈ t.fields) {r : Relation} (hr : r ∈ t.relations) (hfield : r.field = f.name) :
    ∃ shape, shapeOf f.type = .ok shape := by
  obtain ⟨d, g, hsite, hname, hsame, hshape, -⟩ := hrooted.relations t ht r hr
  obtain ⟨hd, hg⟩ := Sdl.Document.field_mem_sites.1 hsite
  have htable := Sdl.Document.type_mem_sites.1 (hrooted.tables t ht).1
  have howner := List.inj_on_of_nodup_map htypes hd htable hname
  subst howner
  obtain ⟨own, hown, rfl⟩ := List.mem_map.1 hg
  have hobject : t.definition ∈ c.document.objects := by
    have hdefinition := Sdl.Document.mem_declarations.1 htable
    exact List.mem_filterMap.2 ⟨_, hdefinition, rfl⟩
  have hthis := List.inj_on_of_nodup_map (hfields _ hobject) hown hf (hsame.symm.trans hfield)
  subst hthis
  exact ⟨r.shape, hshape⟩

/-- If all types in use have shapes, then so have the fields of tables, as long as fields can be
told apart. -/
theorem Rooted.isShaped (hrooted : c.Rooted)
    (htypes : (c.document.declarations.map (·.name)).Nodup)
    (hfields : FieldsAreDistinct c.document) (huses : UsesShapes c) {t : Table}
    (ht : t ∈ c.tables) :
    IsShaped t.fields := by
  intro f hf
  cases hrelation : t.relation? f.name with
  | none => exact huses.fields t ht f (List.mem_filter.2 ⟨hf, by simp [hrelation]⟩)
  | some r =>
    have hfield : r.field = f.name := by simpa using List.find?_some hrelation
    exact hrooted.exists_shape htypes hfields ht hf (List.mem_of_find?_eq_some hrelation) hfield

/-- **A catalog whose fields can be told apart is emitted exactly if all types in use have shapes**:
wherever `sharedFragments` can be made, all other fragments can. -/
theorem exists_emit_iff (hrooted : c.Rooted)
    (htypes : (c.document.declarations.map (·.name)).Nodup)
    (hfields : FieldsAreDistinct c.document) (hends : ∀ t ∈ c.tables, t.EndsAreNamed) :
    (∃ fs, c.emit.outcome = .ok fs) ↔ UsesShapes c := by
  rw [← exists_sharedFragments_iff]
  simp only [emit, Report.outcome_bind, Report.outcome_mapM, Report.outcome_lift]
  constructor
  · rintro ⟨fs, h⟩
    obtain ⟨tables, -, h⟩ := Outcome.of_bind_eq_ok h
    obtain ⟨shared, hshared, -⟩ := Outcome.of_bind_eq_ok h
    exact ⟨shared, hshared⟩
  · intro hshared
    have huses := exists_sharedFragments_iff.1 hshared
    refine Outcome.exists_bind (Outcome.exists_mapM fun t ht => ?_) fun _ => ?_
    · exact exists_tableFragments (hrooted.isShaped htypes hfields huses ht) (hends t ht)
    · refine Outcome.exists_bind hshared fun _ => ?_
      split <;> exact ⟨_, rfl⟩

end Catalog

end SchemaLoom
