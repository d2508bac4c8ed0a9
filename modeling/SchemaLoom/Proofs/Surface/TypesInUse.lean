/-
The search for the types in use.

The fields of tables use types, and the fields of object types in use use further ones.  The
search for them succeeds exactly if all fields that it comes across have shapes (`UsesShapes`);
which fields those are is said here by a relation that knows of no order (`InUse`).

That the search is complete is an account.  For the object types met so far it owes the types of
their fields, which have been met or are waited for (`Accounts`); with nothing left to wait for,
what was met is closed under the types of fields, and so holds all types in use (`mem_of_inUse`).

The search runs on fuel, namely the number of types that it has not met.  A step either meets one
of these or drops a type from the list.
-/
import SchemaLoom.Proofs.Surface.Generated

namespace SchemaLoom

open Surface

/-- The types of all `fields` have shapes. -/
def IsShaped (fields : List Sdl.Field) : Prop := ∀ f ∈ fields, ∃ shape, shapeOf f.type = .ok shape

namespace Surface

variable {c : Catalog}

/-- The types that the fields of tables use, and in turn those of object types in use. -/
inductive InUse (c : Catalog) : String → Prop where
  | field {t : Table} {f : Sdl.Field} {shape : Sdl.Shape} (htable : t ∈ c.tables)
    (hfield : f ∈ plainFields t) (hshape : shapeOf f.type = .ok shape) : InUse c shape.base
  | through {name : String} {o : Sdl.ObjectType} {f : Sdl.Field} {shape : Sdl.Shape}
    (hused : InUse c name) (hobject : c.category name = .object)
    (htype : c.objectType? name = some o)
    (hfield : f ∈ o.fields) (hshape : shapeOf f.type = .ok shape) : InUse c shape.base

/-- All fields that the search comes across have shapes. -/
structure UsesShapes (c : Catalog) : Prop where
  fields : ∀ t ∈ c.tables, IsShaped (plainFields t)
  types : ∀ name o, InUse c name → c.category name = .object → c.objectType? name = some o →
    IsShaped o.fields

/-! ### Base types -/

theorem exists_baseTypes {fields : List Sdl.Field} (h : IsShaped fields) :
    ∃ types, baseTypes fields = .ok types := by
  refine Outcome.exists_mapM fun f hf => ?_
  obtain ⟨shape, hshape⟩ := h f hf
  exact ⟨shape.base, by rw [hshape]; rfl⟩

theorem isShaped_of_baseTypes {fields : List Sdl.Field} {types : List String}
    (h : baseTypes fields = .ok types) : IsShaped fields := by
  intro f hf
  obtain ⟨type, -, htype⟩ := Outcome.exists_result_of_mem h hf
  obtain ⟨shape, hshape, -⟩ := Outcome.of_bind_eq_ok htype
  exact ⟨shape, hshape⟩

theorem mem_baseTypes {fields : List Sdl.Field} {types : List String}
    (h : baseTypes fields = .ok types) {name : String} :
    name ∈ types ↔ ∃ f ∈ fields, ∃ shape, shapeOf f.type = .ok shape ∧ shape.base = name := by
  constructor
  · intro hname
    obtain ⟨f, hf, htype⟩ := Outcome.exists_of_mem_mapM h hname
    obtain ⟨shape, hshape, hbase⟩ := Outcome.of_bind_eq_ok htype
    cases hbase
    exact ⟨f, hf, shape, hshape, rfl⟩
  · rintro ⟨f, hf, shape, hshape, rfl⟩
    obtain ⟨type, hmem, htype⟩ := Outcome.exists_result_of_mem h hf
    rw [hshape] at htype
    cases htype
    exact hmem

/-! ### The search

What a search owes for the object types that it met is met itself, or waited for (`Accounts`).
Where it waits for nothing, nothing is owed.
-/

/-- The search succeeds if all types in use have shaped fields. -/
theorem exists_visit {pending : List String} {met : TypesInUse}
    (hshapes : ∀ name o, InUse c name → c.category name = .object → c.objectType? name = some o →
      IsShaped o.fields)
    (hpending : ∀ name ∈ pending, InUse c name) : ∃ used, visit c pending met = .ok used := by
  fun_induction visit c pending met with
  | case1 met => exact ⟨met, rfl⟩
  | case2 met name rest _ ih => exact ih (List.forall_mem_cons.1 hpending).2
  | case3 met name rest _ _ ih => exact ih (List.forall_mem_cons.1 hpending).2
  | case4 met name rest _ _ _ ih => exact ih (List.forall_mem_cons.1 hpending).2
  | case5 met name rest hobject _ o htype fault hfault =>
    have hused := (List.forall_mem_cons.1 hpending).1
    obtain ⟨types, htypes⟩ := exists_baseTypes (hshapes name o hused hobject htype)
    rw [hfault] at htypes
    cases htypes
  | case6 met name rest hobject _ o htype more hmore ih =>
    obtain ⟨hused, hrest⟩ := List.forall_mem_cons.1 hpending
    refine ih fun other hother => ?_
    rcases List.mem_append.1 hother with hother | hother
    · exact hrest other hother
    · obtain ⟨f, hf, shape, hshape, rfl⟩ := (mem_baseTypes hmore).1 hother
      exact .through hused hobject htype hf hshape
  | case7 met name rest _ _ ih => exact ih (List.forall_mem_cons.1 hpending).2

/-- The name `name` is that of an object type that is no table. -/
def IsObject (c : Catalog) (name : String) : Prop :=
  c.category name = .object ∧ (c.objectType? name).isSome

/-- What a search owes for the object types that it met: their fields have shapes, and the types of
the fields have been met or are waited for. -/
def Accounts (c : Catalog) (objects pending : List String) : Prop :=
  ∀ name ∈ objects, ∀ o, c.objectType? name = some o → IsShaped o.fields ∧
    ∀ f ∈ o.fields, ∀ shape, shapeOf f.type = .ok shape → IsObject c shape.base →
      shape.base ∈ objects ∨ shape.base ∈ pending

/-- A type that is no object type need not be waited for. -/
theorem Accounts.skip {objects rest : List String} {name : String}
    (h : Accounts c objects (name :: rest)) (hskip : IsObject c name → name ∈ objects) :
    Accounts c objects rest := by
  intro other hother o htype
  obtain ⟨hshaped, hfields⟩ := h other hother o htype
  refine ⟨hshaped, fun f hf shape hshape hobject => ?_⟩
  rcases hfields f hf shape hshape hobject with hmet | hwaits
  · exact Or.inl hmet
  · rcases List.mem_cons.1 hwaits with hhere | hrest
    · exact Or.inl (hhere ▸ hskip (hhere ▸ hobject))
    · exact Or.inr hrest

/-- What a search has done in the end. -/
structure Completes (c : Catalog) (objects pending used : List String) : Prop where
  keeps : ∀ name ∈ objects, name ∈ used
  meets : ∀ name ∈ pending, IsObject c name → name ∈ used
  accounts : Accounts c used []

theorem Completes.skip {objects rest used : List String} {name : String}
    (h : Completes c objects rest used) (hskip : IsObject c name → name ∈ objects) :
    Completes c objects (name :: rest) used := by
  refine ⟨h.keeps, fun other hother hobject => ?_, h.accounts⟩
  rcases List.mem_cons.1 hother with rfl | hrest
  · exact h.keeps other (hskip hobject)
  · exact h.meets other hrest hobject

/-- When the fields of an object type are looked at, their types are waited for. -/
theorem Accounts.meet {objects rest more : List String} {name : String} {o : Sdl.ObjectType}
    (h : Accounts c objects (name :: rest)) (htype : c.objectType? name = some o)
    (hmore : baseTypes o.fields = .ok more) : Accounts c (objects ++ [name]) (rest ++ more) := by
  intro other hother o' htype'
  rcases List.mem_append.1 hother with hold | hnew
  · obtain ⟨hshaped, hfields⟩ := h other hold o' htype'
    refine ⟨hshaped, fun f hf shape hshape hobject => ?_⟩
    rcases hfields f hf shape hshape hobject with hmet | hwaits
    · exact Or.inl (List.mem_append_left _ hmet)
    · rcases List.mem_cons.1 hwaits with hhere | hrest
      · exact Or.inl (List.mem_append_right _ (by simp [hhere]))
      · exact Or.inr (List.mem_append_left _ hrest)
  · rw [List.mem_singleton.1 hnew, htype] at htype'
    cases htype'
    refine ⟨isShaped_of_baseTypes hmore, fun f hf shape hshape _ => ?_⟩
    exact Or.inr (List.mem_append_right _ ((mem_baseTypes hmore).2 ⟨f, hf, shape, hshape, rfl⟩))

/-- **A search that succeeds has met all object types that it waited for, and accounts for them**
(`Accounts`, `Completes`). -/
theorem completes_of_visit {pending : List String} {met used : TypesInUse}
    (h : visit c pending met = .ok used) (haccounts : Accounts c met.objects pending) :
    Completes c met.objects pending used.objects := by
  -- Types that are no objects, or that were met before, are not owed anything for.
  fun_induction visit c pending met with
  | case1 met =>
    cases h
    exact ⟨fun _ hname => hname, fun _ hname => absurd hname List.not_mem_nil, haccounts⟩
  | case2 met name rest henum ih =>
    have hskip : IsObject c name → name ∈ met.objects := by
      rintro ⟨hcategory, -⟩
      rw [henum] at hcategory
      cases hcategory
    exact (ih h (haccounts.skip hskip)).skip hskip
  | case3 met name rest _ hmet ih =>
    have hskip : IsObject c name → name ∈ met.objects := fun _ => hmet
    exact (ih h (haccounts.skip hskip)).skip hskip
  | case4 met name rest _ _ hnone ih =>
    have hskip : IsObject c name → name ∈ met.objects := by
      rintro ⟨-, hsome⟩
      rw [hnone] at hsome
      cases hsome
    exact (ih h (haccounts.skip hskip)).skip hskip
  | case5 => cases h
  | case6 met name rest _ _ o htype more hmore ih =>
    have hdone := ih h (haccounts.meet htype hmore)
    refine ⟨fun other hother => hdone.keeps other (List.mem_append_left _ hother), ?_,
      hdone.accounts⟩
    intro other hother hobject
    rcases List.mem_cons.1 hother with rfl | hrest
    · exact hdone.keeps other (List.mem_append_right _ List.mem_cons_self)
    · exact hdone.meets other (List.mem_append_left _ hrest) hobject
  | case7 met name rest _ hother ih =>
    have hskip : IsObject c name → name ∈ met.objects := fun hobject => (hother hobject.1).elim
    exact (ih h (haccounts.skip hskip)).skip hskip

/-! ### Types in use -/

/-- **All object types in use are met.** -/
theorem mem_of_inUse {types : List String} {used : TypesInUse}
    (htypes : baseTypes (c.tables.flatMap plainFields) = .ok types)
    (h : visit c types {} = .ok used) {name : String} (hused : InUse c name)
    (hobject : IsObject c name) : name ∈ used.objects := by
  have hdone := completes_of_visit h fun _ hname => absurd hname List.not_mem_nil
  induction hused with
  | @field t f shape htable hfield hshape =>
    refine hdone.meets _ ((mem_baseTypes htypes).2 ⟨f, ?_, shape, hshape, rfl⟩) hobject
    exact List.mem_flatMap.2 ⟨t, htable, hfield⟩
  | @through name o f shape _ his htype hfield hshape ih =>
    have hmet := ih ⟨his, by rw [htype]; rfl⟩
    rcases (hdone.accounts name hmet o htype).2 f hfield shape hshape hobject with hthere | hnone
    · exact hthere
    · cases hnone

/-! ### What has been met -/

theorem mem_addNew {name other : String} {names : List String} :
    name ∈ addNew other names ↔ name ∈ names ∨ name = other := by
  unfold addNew
  split
  next hthere =>
    refine ⟨Or.inl, fun h => h.elim id fun hsame => ?_⟩
    rw [hsame]
    simpa using hthere
  · simp

/-- An enum that has been met stays met. -/
theorem enums_subset_of_visit {pending : List String} {met used : TypesInUse}
    (h : visit c pending met = .ok used) {name : String} (hmet : name ∈ met.enums) :
    name ∈ used.enums := by
  fun_induction visit c pending met with
  | case1 met =>
    cases h
    exact hmet
  | case2 met other rest _ ih => exact ih h (mem_addNew.2 (Or.inl hmet))
  | case3 met other rest _ _ ih => exact ih h hmet
  | case4 met other rest _ _ _ ih => exact ih h hmet
  | case5 => cases h
  | case6 met other rest _ _ o _ more _ ih => exact ih h hmet
  | case7 met other rest _ _ ih => exact ih h hmet

/-- An enum that is waited for is met. -/
theorem mem_enums_of_visit {pending : List String} {met used : TypesInUse}
    (h : visit c pending met = .ok used) {name : String} (hwaits : name ∈ pending)
    (henum : c.category name = .enum) : name ∈ used.enums := by
  fun_induction visit c pending met with
  | case1 met => cases hwaits
  | case2 met other rest _ ih =>
    rcases List.mem_cons.1 hwaits with rfl | hrest
    · exact enums_subset_of_visit h (mem_addNew.2 (Or.inr rfl))
    · exact ih h hrest
  | case3 met other rest hother _ ih | case4 met other rest hother _ _ ih =>
    rcases List.mem_cons.1 hwaits with rfl | hrest
    · rw [henum] at hother
      cases hother
    · exact ih h hrest
  | case5 => cases h
  | case6 met other rest hother _ o _ more _ ih =>
    rcases List.mem_cons.1 hwaits with rfl | hrest
    · rw [henum] at hother
      cases hother
    · exact ih h (List.mem_append_left _ hrest)
  | case7 met other rest hother _ ih =>
    rcases List.mem_cons.1 hwaits with rfl | hrest
    · exact absurd henum hother
    · exact ih h hrest

/-- What has been met are enums and object types, each in its list. -/
structure TypesInUse.IsSorted (c : Catalog) (met : TypesInUse) : Prop where
  enums : ∀ name ∈ met.enums, c.category name = .enum
  objects : ∀ name ∈ met.objects, IsObject c name

theorem isSorted_of_visit {pending : List String} {met used : TypesInUse}
    (h : visit c pending met = .ok used) (hmet : met.IsSorted c) : used.IsSorted c := by
  fun_induction visit c pending met with
  | case1 met =>
    cases h
    exact hmet
  | case2 met other rest henum ih =>
    refine ih h ⟨fun name hname => ?_, hmet.objects⟩
    rcases mem_addNew.1 hname with hold | rfl
    · exact hmet.enums name hold
    · exact henum
  | case3 met other rest _ _ ih => exact ih h hmet
  | case4 met other rest _ _ _ ih => exact ih h hmet
  | case5 => cases h
  | case6 met other rest hobject _ o htype more _ ih =>
    refine ih h ⟨hmet.enums, fun name hname => ?_⟩
    rcases List.mem_append.1 hname with hold | hnew
    · exact hmet.objects name hold
    · rw [List.mem_singleton.1 hnew]
      exact ⟨hobject, by rw [htype]; rfl⟩
  | case7 met other rest _ _ ih => exact ih h hmet

/-- **What counts as a table is one, and what counts as a type of another kind is declared so.** -/
theorem category_spec (c : Catalog) (name : String) :
    match c.category name with
    | .model => ∃ t ∈ c.tables, t.name = name
    | .enum => c.declares [.enum] name = true
    | .object => c.declares [.object] name = true
    | .opaqueType => c.declares [.interface, .union, .input] name = true
    | .scalar => c.declares [.interface, .union, .input] name = false := by
  unfold Catalog.category
  by_cases htable : (c.table? name).isSome = true
  · rw [if_pos htable]
    obtain ⟨t, hfound⟩ := Option.isSome_iff_exists.1 htable
    exact ⟨t, Catalog.mem_of_table? hfound⟩
  by_cases henum : c.declares [.enum] name = true
  · rwa [if_neg htable, if_pos henum]
  by_cases hobject : c.declares [.object] name = true
  · rwa [if_neg htable, if_neg henum, if_pos hobject]
  by_cases hother : c.declares [.interface, .union, .input] name = true
  · rwa [if_neg htable, if_neg henum, if_neg hobject, if_pos hother]
  · rw [if_neg htable, if_neg henum, if_neg hobject, if_neg hother]
    exact Bool.eq_false_iff.2 hother

theorem isObject_of_category {name : String} (h : c.category name = .object) : IsObject c name := by
  refine ⟨h, ?_⟩
  have hdeclared := category_spec c name
  rw [h] at hdeclared
  unfold Catalog.declares Sdl.Document.namesOf at hdeclared
  obtain ⟨d, hd, hname⟩ := List.mem_filterMap.1 (List.contains_iff_mem.1 hdeclared)
  obtain ⟨hdefinition, hkind⟩ := List.mem_filter.1 hd
  unfold Catalog.objectType?
  rw [List.find?_isSome]
  cases d with
  | object body =>
    refine ⟨body, List.mem_filterMap.2 ⟨_, hdefinition, rfl⟩, ?_⟩
    simpa [Sdl.Definition.name?] using hname
  | _ => simp [Sdl.Definition.kind] at hkind

/-- What has been met is all that tables use. -/
structure TypesInUse.Covers (c : Catalog) (used : TypesInUse) : Prop extends used.IsSorted c where
  ofEnum : ∀ t ∈ c.tables, ∀ f ∈ plainFields t, ∀ shape, shapeOf f.type = .ok shape →
    c.category shape.base = .enum → shape.base ∈ used.enums
  ofObject : ∀ t ∈ c.tables, ∀ f ∈ plainFields t, ∀ shape, shapeOf f.type = .ok shape →
    c.category shape.base = .object → shape.base ∈ used.objects
  /-- The types of the fields of an object type that has been met have been met. -/
  through : ∀ name ∈ used.objects, ∀ o, c.objectType? name = some o → ∀ f ∈ o.fields, ∀ shape,
    shapeOf f.type = .ok shape → c.category shape.base = .object → shape.base ∈ used.objects

/-- **A search for the types in use meets all of them.** -/
theorem covers_of_typesInUse {used : TypesInUse} (h : typesInUse c = .ok used) : used.Covers c := by
  obtain ⟨types, htypes, hvisit⟩ := Outcome.of_bind_eq_ok h
  have hdone := completes_of_visit hvisit fun _ hname => absurd hname List.not_mem_nil
  have hempty : TypesInUse.IsSorted c {} :=
    ⟨fun _ hname => absurd hname List.not_mem_nil, fun _ hname => absurd hname List.not_mem_nil⟩
  have hsorted := isSorted_of_visit hvisit hempty
  have hwaits : ∀ t ∈ c.tables, ∀ f ∈ plainFields t, ∀ shape, shapeOf f.type = .ok shape →
      shape.base ∈ types := fun t ht f hf shape hshape =>
    (mem_baseTypes htypes).2 ⟨f, List.mem_flatMap.2 ⟨t, ht, hf⟩, shape, hshape, rfl⟩
  refine ⟨hsorted, fun t ht f hf shape hshape henum => ?_, fun t ht f hf shape hshape hobject => ?_,
    fun name hname o htype f hf shape hshape hobject => ?_⟩
  · exact mem_enums_of_visit hvisit (hwaits t ht f hf shape hshape) henum
  · exact hdone.meets _ (hwaits t ht f hf shape hshape) (isObject_of_category hobject)
  · rcases (hdone.accounts name hname o htype).2 f hf shape hshape (isObject_of_category hobject)
      with hthere | hnone
    · exact hthere
    · cases hnone

/-- **The search for the types in use succeeds exactly if all fields that it comes across have
shapes (`UsesShapes`).** -/
theorem exists_typesInUse_iff : (∃ used, typesInUse c = .ok used) ↔ UsesShapes c := by
  unfold typesInUse
  constructor
  · rintro ⟨used, h⟩
    obtain ⟨types, htypes, hvisit⟩ := Outcome.of_bind_eq_ok h
    have hdone := completes_of_visit hvisit fun _ hname => absurd hname List.not_mem_nil
    refine ⟨fun t ht f hf => ?_, fun name o hused his htype => ?_⟩
    · exact isShaped_of_baseTypes htypes f (List.mem_flatMap.2 ⟨t, ht, hf⟩)
    · have hmet := mem_of_inUse htypes hvisit hused ⟨his, by rw [htype]; rfl⟩
      exact (hdone.accounts name hmet o htype).1
  · intro h
    have hfields : IsShaped (c.tables.flatMap plainFields) := by
      intro f hf
      obtain ⟨t, ht, hplain⟩ := List.mem_flatMap.1 hf
      exact h.fields t ht f hplain
    obtain ⟨types, htypes⟩ := exists_baseTypes hfields
    rw [htypes, Outcome.ok_bind]
    refine exists_visit h.types fun name hname => ?_
    obtain ⟨f, hf, shape, hshape, rfl⟩ := (mem_baseTypes htypes).1 hname
    obtain ⟨t, ht, hplain⟩ := List.mem_flatMap.1 hf
    exact .field ht hplain hshape

/-- The object types that were met have shaped fields. -/
theorem isShaped_of_mem_objects {used : TypesInUse} (h : typesInUse c = .ok used) {name : String}
    (hname : name ∈ used.objects) {o : Sdl.ObjectType} (htype : c.objectType? name = some o) :
    IsShaped o.fields := by
  obtain ⟨types, -, hvisit⟩ := Outcome.of_bind_eq_ok h
  have hdone := completes_of_visit hvisit fun _ hname => absurd hname List.not_mem_nil
  exact (hdone.accounts name hname o htype).1

end Surface

end SchemaLoom
