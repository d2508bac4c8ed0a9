/-
The search for the types in use is exact.

The search keeps a list of types that it still has to look at, which both shrinks and grows.  Two
facts are needed of it.  It comes across nothing but types in use, and notes each of them once:
that is said by `Follows`, which every step keeps.  And it leaves out no type in use: for object
types that is `Completes`, in the module on which this one builds; an enum is met because it is
waited for as soon as the type around it is met (`mem_enums_of_field`).

Types may refer to one another in circles: an object type that was met is not gone through again,
so the number of types that have not been met bounds the search.
-/
import SchemaLoom.Proofs.Surface.TypesInUse

namespace SchemaLoom

open Surface

namespace Catalog

variable {c : Catalog} {name : String}

/-! ### Kinds of types -/

/-- What counts as an enum is declared as one and is no table. -/
theorem category_eq_enum_iff :
    c.category name = .enum ↔ c.table? name = none ∧ c.declares [.enum] name = true := by
  unfold category
  cases htable : c.table? name with
  | some t => simp
  | none =>
    by_cases henum : c.declares [.enum] name = true
    · simp [henum]
    · simp [henum, apply_ite (· = Category.enum)]

/-- What counts as an object type is declared as one, and neither as a table nor as an enum. -/
theorem category_eq_object_iff : c.category name = .object ↔
    c.table? name = none ∧ c.declares [.enum] name = false ∧ c.declares [.object] name = true := by
  unfold category
  cases htable : c.table? name with
  | some t => simp
  | none =>
    by_cases henum : c.declares [.enum] name = true
    · simp [henum]
    · simp [henum, apply_ite (· = Category.object)]

end Catalog

namespace Surface

variable {c : Catalog} {pending rest : List String} {met used : TypesInUse} {name : String}

/-! ### Soundness

What the search waits for is in use, and so is what it meets.
-/

/-- What a search has met and waits for: types in use, and none of those met twice. -/
structure Follows (c : Catalog) (pending : List String) (met : TypesInUse) : Prop where
  waits : ∀ name ∈ pending, InUse c name
  enums : ∀ name ∈ met.enums, InUse c name
  objects : ∀ name ∈ met.objects, InUse c name
  enumsOnce : met.enums.Nodup
  objectsOnce : met.objects.Nodup

theorem Follows.skip (h : Follows c (name :: rest) met) : Follows c rest met :=
  { h with waits := (List.forall_mem_cons.1 h.waits).2 }

theorem nodup_addNew {names : List String} (h : names.Nodup) : (addNew name names).Nodup := by
  unfold addNew
  split
  · exact h
  next hnew =>
    rw [← List.concat_eq_append]
    exact h.concat (by simpa using hnew)

/-- An enum that was waited for is noted. -/
theorem Follows.meetEnum (h : Follows c (name :: rest) met) :
    Follows c rest { met with enums := addNew name met.enums } := by
  obtain ⟨hused, hrest⟩ := List.forall_mem_cons.1 h.waits
  refine ⟨hrest, fun other hother => ?_, h.objects, nodup_addNew h.enumsOnce, h.objectsOnce⟩
  rcases mem_addNew.1 hother with hold | rfl
  · exact h.enums other hold
  · exact hused

/-- An object type that was waited for is noted, and the types of its fields are waited for. -/
theorem Follows.meetObject (h : Follows c (name :: rest) met) (hobject : c.category name = .object)
    (hnew : name ∉ met.objects) {o : Sdl.ObjectType} (htype : c.objectType? name = some o)
    {more : List String} (hmore : baseTypes o.fields = .ok more) :
    Follows c (rest ++ more) { met with objects := met.objects ++ [name] } := by
  obtain ⟨hused, hrest⟩ := List.forall_mem_cons.1 h.waits
  refine ⟨fun other hother => ?_, h.enums, fun other hother => ?_, h.enumsOnce,
    List.concat_eq_append ▸ h.objectsOnce.concat hnew⟩
  · rcases List.mem_append.1 hother with hold | hfield
    · exact hrest other hold
    · obtain ⟨f, hf, shape, hshape, rfl⟩ := (mem_baseTypes hmore).1 hfield
      exact .through hused hobject htype hf hshape
  · rcases List.mem_append.1 hother with hold | hhere
    · exact h.objects other hold
    · rw [List.mem_singleton.1 hhere]
      exact hused

/-- **A search comes across nothing but types in use, and notes each of them once**: `Follows` is
what `visit` preserves. -/
theorem Follows.visit (hfollows : Follows c pending met) (h : visit c pending met = .ok used) :
    Follows c [] used := by
  fun_induction Surface.visit c pending met with
  | case1 met =>
    cases h
    exact hfollows
  | case2 met name rest _ ih => exact ih hfollows.meetEnum h
  | case3 met name rest _ _ ih => exact ih hfollows.skip h
  | case4 met name rest _ _ _ ih => exact ih hfollows.skip h
  | case5 => cases h
  | case6 met name rest hobject hnew o htype more hmore ih =>
    exact ih (hfollows.meetObject hobject hnew htype hmore) h
  | case7 met name rest _ _ ih => exact ih hfollows.skip h

/-! ### Completeness

The search goes on until nothing is pending, so the fields of every object type that was met have
been looked at.
-/

/-- An enum that a field of an object type has is met once the object type is. -/
theorem mem_enums_of_field (h : visit c pending met = .ok used) {o : Sdl.ObjectType}
    (hused : name ∈ used.objects) (hnew : name ∉ met.objects) (htype : c.objectType? name = some o)
    {f : Sdl.Field} (hfield : f ∈ o.fields) {shape : Sdl.Shape}
    (hshape : shapeOf f.type = .ok shape)
    (henum : c.category shape.base = .enum) : shape.base ∈ used.enums := by
  fun_induction visit c pending met with
  | case1 met =>
    cases h
    exact absurd hused hnew
  | case2 met other rest _ ih => exact ih h hnew
  | case3 met other rest _ _ ih => exact ih h hnew
  | case4 met other rest _ _ _ ih => exact ih h hnew
  | case5 => cases h
  | case6 met other rest _ _ o' hother more hmore ih =>
    by_cases hsame : name = other
    · -- The fields of this very type are waited for from here on.
      subst hsame
      cases htype.symm.trans hother
      have hwaits := (mem_baseTypes hmore).2 ⟨f, hfield, shape, hshape, rfl⟩
      exact mem_enums_of_visit h (List.mem_append_right rest hwaits) henum
    · refine ih h fun hmem => ?_
      rcases List.mem_append.1 hmem with hold | hhere
      · exact hnew hold
      · exact hsame (List.mem_singleton.1 hhere)
  | case7 met other rest _ _ ih => exact ih h hnew

/-- **All enums in use are met.** -/
theorem mem_enums_of_inUse {types : List String}
    (htypes : baseTypes (c.tables.flatMap plainFields) = .ok types)
    (h : visit c types {} = .ok used) (hused : InUse c name) (henum : c.category name = .enum) :
    name ∈ used.enums := by
  cases hused with
  | @field t f shape htable hfield hshape =>
    refine mem_enums_of_visit h ((mem_baseTypes htypes).2 ⟨f, ?_, shape, hshape, rfl⟩) henum
    exact List.mem_flatMap.2 ⟨t, htable, hfield⟩
  | @through other o f shape hother hobject htype hfield hshape =>
    have hmet := mem_of_inUse htypes h hother (isObject_of_category hobject)
    exact mem_enums_of_field h hmet List.not_mem_nil htype hfield hshape henum

/-! ### The types in use -/

/-- The lists of `used` are the enums and the object types in use, each listed once. -/
structure TypesInUse.IsExact (c : Catalog) (used : TypesInUse) : Prop where
  enumsOnce : used.enums.Nodup
  objectsOnce : used.objects.Nodup
  mem_enums : ∀ name, name ∈ used.enums ↔
    InUse c name ∧ c.table? name = none ∧ c.declares [.enum] name = true
  mem_objects : ∀ name, name ∈ used.objects ↔ InUse c name ∧ c.table? name = none ∧
    c.declares [.enum] name = false ∧ c.declares [.object] name = true

/-- **If all fields that the search comes across have shapes, the search ends, and it lists each
enum and each object type in use once and nothing else (`TypesInUse.IsExact`).** Object types that
are tables do not count, and their fields are not followed. -/
theorem typesInUse_exact (h : UsesShapes c) :
    ∃ used, typesInUse c = .ok used ∧ used.IsExact c := by
  obtain ⟨used, hfound⟩ := exists_typesInUse_iff.2 h
  obtain ⟨types, htypes, hvisit⟩ := Outcome.of_bind_eq_ok hfound
  have hstart : Follows c types {} := by
    refine ⟨fun name hname => ?_, nofun, nofun, List.nodup_nil, List.nodup_nil⟩
    obtain ⟨f, hf, shape, hshape, rfl⟩ := (mem_baseTypes htypes).1 hname
    obtain ⟨t, ht, hplain⟩ := List.mem_flatMap.1 hf
    exact .field ht hplain hshape
  have hfollows := hstart.visit hvisit
  have hcovers := covers_of_typesInUse hfound
  refine ⟨used, hfound, hfollows.enumsOnce, hfollows.objectsOnce, fun name => ?_, fun name => ?_⟩
  · rw [← Catalog.category_eq_enum_iff]
    refine ⟨fun hmem => ⟨hfollows.enums name hmem, hcovers.enums name hmem⟩, fun hused => ?_⟩
    exact mem_enums_of_inUse htypes hvisit hused.1 hused.2
  · rw [← Catalog.category_eq_object_iff]
    refine ⟨fun hmem => ⟨hfollows.objects name hmem, (hcovers.objects name hmem).1⟩,
      fun hused => ?_⟩
    exact mem_of_inUse htypes hvisit hused.1 (isObject_of_category hused.2)

/-- Posts of authors, whose profiles lead back to the authors and on to other posts. -/
def circledPosts : Catalog :=
  let field (name : String) (type : Sdl.TypeRef) : Sdl.Field := ⟨none, name, [], type, []⟩
  let object (name : String) (fields : List Sdl.Field) : Sdl.ObjectType :=
    ⟨none, name, [], [], fields⟩
  let post := object "Post" [field "author" (.named "Author"), field "mood" (.named "Mood"),
    field "editor" (.nonNull (.named "Author"))]
  let author := object "Author" [field "profile" (.named "Profile"), field "name" (.named "String")]
  let profile := object "Profile" [field "author" (.named "Author"), field "rank" (.named "Rank"),
    field "peers" (.list (.named "Profile")), field "posts" (.list (.named "Post"))]
  let unused := object "Draft" [field "mood" (.named "Mood")]
  { document := ⟨[.object post, .object author, .object profile, .object unused,
      .enum ⟨none, "Mood", [], []⟩, .enum ⟨none, "Rank", [], []⟩]⟩,
    tables := [{ definition := post }] }

theorem circledPosts_exact : UsesShapes circledPosts ∧
    ∃ used, typesInUse circledPosts = .ok used ∧ used.IsExact circledPosts ∧
      used = ⟨["Mood", "Rank"], ["Author", "Profile"]⟩ := by
  have hfound : Outcome.Holds (typesInUse circledPosts)
      (· = ⟨["Mood", "Rank"], ["Author", "Profile"]⟩) := by
    decide +kernel
  obtain ⟨found, heq, hlists⟩ := hfound
  have hshapes := exists_typesInUse_iff.1 ⟨found, heq⟩
  obtain ⟨used, hused, hexact⟩ := typesInUse_exact hshapes
  cases heq.symm.trans hused
  exact ⟨hshapes, found, heq, hexact, hlists⟩

end Surface

end SchemaLoom
