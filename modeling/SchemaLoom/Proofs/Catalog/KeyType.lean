/-
Types of the attributes behind relations.

The items of one table hold the key of items of another one: those of the table itself for a
relation to one item, those of the related table for a relation to many.  What they hold is
matched with the partition of the primary key of the other table.

The stored type of an attribute is told by the field that its table declares under the name: a
number, or else a text.  A foreign key that is made up is no declared field, so it is a text, and
it is given as one.  So both ends of a relation have one type exactly if both are declared as
numbers or none is (`sameType_iff`); and made up foreign keys match all keys but numbers.

That an attribute has a stored type at all is a consequence of the table being emitted
(`isTyped_of_emit`).
-/
import SchemaLoom.Proofs.Catalog.Acceptance
import SchemaLoom.Proofs.Catalog.RelatedItem
import SchemaLoom.Proofs.Surface.Storage

namespace SchemaLoom

open Catalog Surface

/-! ### Stored types

There are two stored types, so two attributes are of the same type if both are numbers or neither
is.
-/

namespace Table

variable {t u : Table} {name name' letter : String}

/-- Under the name `name` the table `t` declares a field of numbers, and not a list of them. -/
def DeclaresNumber (t : Table) (name : String) : Prop :=
  ∃ f shape, t.field? name = some f ∧ shapeOf f.type = .ok shape ∧ shape.isList = false ∧
    shape.base ∈ numericTypes

/-- The attribute `name` of `t` has a stored type. -/
def IsTyped (t : Table) (name : String) : Prop := ∃ letter, t.attributeType name = .ok letter

/-- The attribute `name` of `t` and the attribute `name'` of `u` have one stored type. -/
def SameType (t : Table) (name : String) (u : Table) (name' : String) : Prop :=
  ∃ letter, t.attributeType name = .ok letter ∧ u.attributeType name' = .ok letter

/-- An attribute is a number just if it is declared so, and else a text. -/
theorem attributeType_eq (h : t.attributeType name = .ok letter) :
    letter = "N" ∧ t.DeclaresNumber name ∨ letter = "S" ∧ ¬ t.DeclaresNumber name := by
  unfold attributeType fieldShape? at h
  cases hfield : t.field? name with
  | none =>
    rw [hfield] at h
    cases h
    refine Or.inr ⟨rfl, ?_⟩
    rintro ⟨f, -, hsome, -⟩
    rw [hfield] at hsome
    cases hsome
  | some f =>
    rw [hfield] at h
    obtain ⟨found, hfound, h⟩ := Outcome.of_bind_eq_ok h
    obtain ⟨shape, hshape, rfl⟩ := Outcome.of_map_eq_ok hfound
    cases h
    have hnumber : t.DeclaresNumber name ↔ shape.isList = false ∧ shape.base ∈ numericTypes := by
      constructor
      · rintro ⟨g, other, hsame, hother, hkind⟩
        rw [hfield, Option.some.injEq] at hsame
        subst hsame
        rw [hshape, Except.ok.injEq] at hother
        exact hother ▸ hkind
      · exact fun hkind => ⟨f, shape, hfield, hshape, hkind⟩
    rw [hnumber]
    by_cases hkind : shape.isList = false ∧ shape.base ∈ numericTypes
    · exact Or.inl ⟨by simp [hkind], hkind⟩
    · refine Or.inr ⟨if_neg ?_, hkind⟩
      simpa using hkind

/-- **Attributes have one type just if both have a type, and both are declared as numbers or none**
(`DeclaresNumber`). -/
theorem sameType_iff : t.SameType name u name' ↔
    t.IsTyped name ∧ u.IsTyped name' ∧ (t.DeclaresNumber name ↔ u.DeclaresNumber name') := by
  constructor
  · rintro ⟨letter, hfirst, hsecond⟩
    refine ⟨⟨letter, hfirst⟩, ⟨letter, hsecond⟩, ?_⟩
    rcases attributeType_eq hfirst with ⟨rfl, hhere⟩ | ⟨rfl, hhere⟩ <;>
      rcases attributeType_eq hsecond with ⟨hletter, hthere⟩ | ⟨hletter, hthere⟩
    · exact iff_of_true hhere hthere
    · exact absurd hletter (by decide)
    · exact absurd hletter (by decide)
    · exact iff_of_false hhere hthere
  · rintro ⟨⟨letter, hfirst⟩, ⟨letter', hsecond⟩, hsame⟩
    refine ⟨letter, hfirst, ?_⟩
    rcases attributeType_eq hfirst with ⟨rfl, hhere⟩ | ⟨rfl, hhere⟩ <;>
      rcases attributeType_eq hsecond with ⟨rfl, hthere⟩ | ⟨rfl, hthere⟩
    · exact hsecond
    · exact absurd (hsame.1 hhere) hthere
    · exact absurd (hsame.2 hthere) hhere
    · exact hsecond

/-- What is not declared is a text. -/
theorem not_declaresNumber_of_none (h : t.field? name = none) : ¬ t.DeclaresNumber name := by
  rintro ⟨f, -, hsome, -⟩
  rw [h] at hsome
  cases hsome

theorem isTyped_of_none (h : t.field? name = none) : t.IsTyped name :=
  ⟨"S", by rw [attributeType, fieldShape?, h]; rfl⟩

end Table

/-! ### Emitted tables -/

variable {c : Catalog} {k : Compilation} {t u : Table} {r : Relation}

/-- The partition of the primary key of a table that is emitted has a stored type. -/
theorem isTyped_partition_of_emit {fs : List Artifact.Fragment} (h : c.emit.outcome = .ok fs)
    (ht : t ∈ c.tables) : t.IsTyped t.primaryKey.partition := by
  have hpart : TablePart.storage ∈ t.parts := by simp [Table.parts]
  obtain ⟨gs, hstorage, -⟩ := exists_part_of_emit h ht hpart
  obtain ⟨own, -, -, -, hown, -⟩ := storageFragments_eq_ok.1 hstorage
  obtain ⟨d, -, hdefined⟩ := Outcome.exists_result_of_mem hown List.mem_cons_self
  obtain ⟨letter, hletter, -⟩ := of_attributeDefinition hdefined
  exact ⟨letter, hletter⟩

/-- All attributes of emitted tables have stored types, as long as fields can be told apart. -/
theorem isTyped_of_emit {fs : List Artifact.Fragment} (hrooted : c.Rooted)
    (htypes : (c.document.declarations.map (·.name)).Nodup)
    (hfields : FieldsAreDistinct c.document) (h : c.emit.outcome = .ok fs) (ht : t ∈ c.tables)
    (name : String) : t.IsTyped name := by
  obtain ⟨-, shared, -, hshared, -⟩ := exists_of_emit h
  exact Table.exists_attributeType
    (hrooted.isShaped htypes hfields (exists_sharedFragments_iff.1 ⟨shared, hshared⟩) ht) name

/-! ### Ends of a relation

The attribute at either end belongs to the table that holds it (`keyHolder`, `keyOwner`), which is
the one or the other depending on the kind of the relation.
-/

/-- The table whose items hold the key of items of another one. -/
def keyHolder (t u : Table) (r : Relation) : Table := if r.toMany then u else t

/-- The table whose items they are. -/
def keyOwner (t u : Table) (r : Relation) : Table := if r.toMany then t else u

/-- The attributes at the ends of a relation that says neither: the foreign key and what it
matches. -/
theorem ends_of_plain (hu : c.table? r.target = some u) (hmine : present r.myKey = none)
    (hyours : present r.yourKey = none)
    (hkey : r.toMany = false → t.targetKey? r = c.primaryKey? r.target) :
    (t.myKey r, t.yourKey r) =
      if r.toMany then (t.primaryKey.partition, t.foreignKey r)
      else (t.foreignKey r, u.primaryKey.partition) := by
  cases hmany : r.toMany with
  | true => simp [Table.myKey, Table.yourKey, hmine, hyours, hmany]
  | false =>
    have htarget : t.targetKey? r = some u.primaryKey := by
      rw [hkey hmany, primaryKey?, hu, Option.map_some]
    simp [Table.myKey, Table.yourKey, hmine, hyours, hmany, htarget]

/-- Attributes of a holder and an owner have one type just if those at the ends of the relation
have. -/
theorem sameType_ends (hends : (t.myKey r, t.yourKey r) =
      if r.toMany then (t.primaryKey.partition, t.foreignKey r)
      else (t.foreignKey r, u.primaryKey.partition)) :
    t.SameType (t.myKey r) u (t.yourKey r) ↔ (keyHolder t u r).SameType (t.foreignKey r)
      (keyOwner t u r) (keyOwner t u r).primaryKey.partition := by
  unfold keyHolder keyOwner
  cases hmany : r.toMany with
  | true =>
    simp only [hmany, ↓reduceIte, Prod.mk.injEq] at hends ⊢
    rw [hends.1, hends.2]
    exact exists_congr fun letter => And.comm
  | false =>
    simp only [hmany, Bool.false_eq_true, ↓reduceIte, Prod.mk.injEq] at hends ⊢
    rw [hends.1, hends.2]

/-- **Both ends of a relation that says no attributes have one type exactly if both are declared as
numbers, or none is**: the foreign key, and the partition that it matches.  A foreign key that is no
declared field matches all but numbers.  Relations to one item on one field share what the last one
leads to. -/
theorem endTypes_of_compileDocument {document : Sdl.Document} {schemaName : String}
    {scope : Sdl.Scope} (hcompile : (compileDocument schemaName scope document).outcome = .ok k)
    (ht : t ∈ k.catalog.tables) (hu : k.catalog.table? r.target = some u)
    (hmine : present r.myKey = none) (hyours : present r.yourKey = none)
    (hlast : r.toMany = false →
      k.catalog.keyBehind t.relations r.field = k.catalog.primaryKey? r.target) :
    ((t.myKey r, t.yourKey r) =
      if r.toMany then (t.primaryKey.partition, t.foreignKey r)
      else (t.foreignKey r, u.primaryKey.partition)) ∧
    (t.SameType (t.myKey r) u (t.yourKey r) ↔ (keyHolder t u r).IsTyped (t.foreignKey r) ∧
      ((keyHolder t u r).DeclaresNumber (t.foreignKey r) ↔
        (keyOwner t u r).DeclaresNumber (keyOwner t u r).primaryKey.partition)) ∧
    ((keyHolder t u r).field? (t.foreignKey r) = none →
      (t.SameType (t.myKey r) u (t.yourKey r) ↔
        ¬ (keyOwner t u r).DeclaresNumber (keyOwner t u r).primaryKey.partition)) ∧
    ((document.declarations.map (·.name)).Nodup → FieldsAreDistinct document →
      (keyHolder t u r).IsTyped (t.foreignKey r)) := by
  obtain ⟨hgather, hemit⟩ := of_compileDocument hcompile
  obtain ⟨before, hbefore, hnodup, hcatalog⟩ := exists_collected_of_gather hgather
  obtain ⟨hrooted, hsame, -⟩ := rooted_of_gather hgather
  have htable := table?_of_mem_classify hnodup (hcatalog ▸ ht)
  have hends := ends_of_plain (t := t) hu hmine hyours fun hone => by
    rw [← hlast hone, hcatalog,
      targetKey?_of_classify hnodup (targetKeys_of_collected hbefore) htable]
  have hmembers : keyHolder t u r ∈ k.catalog.tables ∧ keyOwner t u r ∈ k.catalog.tables := by
    unfold keyHolder keyOwner
    cases r.toMany <;> exact
      ⟨by simp [ht, (mem_of_table? hu).1], by simp [ht, (mem_of_table? hu).1]⟩
  have hpartition := isTyped_partition_of_emit hemit hmembers.2
  refine ⟨hends, ?_, fun hnone => ?_, fun htypes hfields => ?_⟩
  · rw [sameType_ends hends, Table.sameType_iff]
    exact and_congr_right fun _ => and_iff_right hpartition
  · rw [sameType_ends hends, Table.sameType_iff,
      iff_false_left (Table.not_declaresNumber_of_none hnone)]
    exact ⟨fun h => h.2.2, fun h => ⟨Table.isTyped_of_none hnone, hpartition, h⟩⟩
  · subst hsame
    exact isTyped_of_emit hrooted htypes hfields hemit hmembers.1 _

/-- Authors that are numbered, and posts with an author and some other fields. -/
def numberedAuthors (fields : List Sdl.Field) : Sdl.Document :=
  ⟨[tableOf "Author" [⟨none, "id", [], .nonNull (.named "Int"), []⟩],
    tableOf "Post" (⟨none, "author", [], .named "Author", [⟨"connection", []⟩]⟩ :: fields)]⟩

/-- Posts that hold the number of their author as one. -/
def numberedPosts : Sdl.Document := numberedAuthors [⟨none, "postAuthorId", [], .named "Int", []⟩]

theorem numberedPosts_match : ∃ k t r u,
    (compileDocument "schema.graphql" none numberedPosts).outcome = .ok k ∧
      t ∈ k.catalog.tables ∧ r ∈ t.relations ∧ k.catalog.table? r.target = some u ∧
      t.SameType (t.myKey r) u (t.yourKey r) := by
  have hfacts : Outcome.Holds (compileDocument "schema.graphql" none numberedPosts).outcome fun k =>
      ∃ t ∈ k.catalog.tables, ∃ r ∈ t.relations, r.toMany = false ∧ present r.myKey = none ∧
        present r.yourKey = none ∧ (∀ s ∈ t.relations, s.field = r.field → s.target = r.target) ∧
        t.foreignKey r = "postAuthorId" ∧
        Outcome.Holds (t.attributeType "postAuthorId") (· = "N") ∧
        ∃ u ∈ k.catalog.table? r.target,
          Outcome.Holds (u.attributeType u.primaryKey.partition) (· = "N") := by
    decide +kernel
  obtain ⟨k, hcompile, t, ht, r, hr, hone, hmine, hyours, halone, hkey, ⟨_, hforeign, rfl⟩, u, hu,
    _, hown, rfl⟩ := hfacts
  obtain ⟨-, hsame, -⟩ := endTypes_of_compileDocument hcompile ht hu hmine hyours fun _ =>
    keyBehind_eq_primaryKey? hr halone
  refine ⟨k, t, r, u, hcompile, ht, hr, hu, hsame.2 ?_⟩
  rw [keyHolder, keyOwner, hone, if_neg Bool.false_ne_true, if_neg Bool.false_ne_true, hkey]
  exact (Table.sameType_iff.1 ⟨"N", hforeign, hown⟩).imp id And.right

/-- A foreign key that is made up is a text, and no number. -/
theorem numberedAuthors_mismatched :
    Outcome.Holds (compileDocument "schema.graphql" none (numberedAuthors [])).outcome fun k =>
      ∃ t ∈ k.catalog.tables, ∃ r ∈ t.relations, r.foreignKey = none ∧ r.myKey = none ∧
        r.yourKey = none ∧ ∃ u ∈ k.catalog.table? r.target,
          Outcome.Holds (t.attributeType (t.myKey r)) (· = "S") ∧
            Outcome.Holds (u.attributeType (t.yourKey r)) (· = "N") := by
  decide +kernel

end SchemaLoom
