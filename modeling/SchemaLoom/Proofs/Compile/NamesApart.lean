/-
Compilations whose generated documents declare every name once.

All schema documents that a compilation emits, besides the published one, are made of
declarations of its tables.  Their names are apart as far as those of the document itself are,
except where a name is a word that the compiler uses itself.

What declarations have apart is shown for each generated document where the declarations are
made; here the documents of a catalog are put together (`Catalog.namesApart_iff`), and carried to
the texts that are emitted.  A text is compared by what it is read as, so all names that are
given have to be names.
-/
import SchemaLoom.Proofs.Compile.Ending
import SchemaLoom.Proofs.Surface.NamesApart

namespace SchemaLoom

open Artifact Surface
open Sdl (Document Scope)

/-- The fields of the primary key differ, also if it is the default. -/
theorem Table.nodup_primaryKey {t : Table} (h : ∀ key ∈ t.keys, key.fields.Nodup) :
    t.primaryKey.fields.Nodup := by
  unfold Table.primaryKey
  cases hfound : t.keys.find? (·.isPrimary) with
  | none => simp [Table.defaultKey, Key.fields]
  | some key => exact h key (List.mem_of_find?_eq_some hfound)

theorem Table.mem_keys_of_queryKeys {t : Table} {key : Key} (h : key ∈ t.queryKeys) :
    key ∈ t.keys :=
  (List.mem_filter.1 (List.mem_filter.1 h).1).1

/-- The documents of a catalog declare every name once, unless a table has a value of the name of a
word, or a query takes two arguments of one name. -/
theorem Catalog.namesApart_iff {c : Catalog} {fragments : List Fragment}
    (hemit : c.emit.outcome = .ok fragments) (hfields : FieldsAreDistinct c.document)
    (hkeys : ∀ t ∈ c.tables, ∀ key ∈ t.keys, key.fields.Nodup) :
    (∀ location ds, c.Generates location ds → ∀ d ∈ ds, d.NamesApart) ↔
      ∀ t ∈ c.tables, ¬ FiltersWord c t ∧ ∀ key ∈ t.queryKeys, ¬ DoublesArgument key := by
  constructor
  · intro hapart t ht
    obtain ⟨ds, hdeclarations, -⟩ := exists_operations_of_emit hemit ht
    have hiff :=
      namesApart_operationDeclarations_iff (Table.nodup_primaryKey (hkeys t ht)) hdeclarations
    refine ⟨hiff.1 (hapart _ _ (.operations ht hdeclarations)), fun key hkey => ?_⟩
    obtain ⟨ds, hdeclarations, -⟩ := exists_query_of_emit hemit ht hkey
    have hdiffer := hkeys t ht key (Table.mem_keys_of_queryKeys hkey)
    exact (namesApart_queryDeclarations_iff hdiffer hdeclarations).1
      (hapart _ _ (.query ht hkey hdeclarations))
  · intro hnone location ds hgenerates
    cases hgenerates with
    | @operations t _ htable hdeclarations =>
      exact (namesApart_operationDeclarations_iff (Table.nodup_primaryKey (hkeys t htable))
        hdeclarations).2 (hnone t htable).1
    | @query t key _ htable hkey hdeclarations =>
      have hdiffer := hkeys t htable key (Table.mem_keys_of_queryKeys hkey)
      exact (namesApart_queryDeclarations_iff hdiffer hdeclarations).2 ((hnone t htable).2 key hkey)
    | shared _ hdeclarations => exact namesApart_sharedDeclarations hfields hdeclarations

/-- **All generated documents declare the fields of every type once, and the arguments of every
field, unless a table has a value of the name of a word that joins filters (`FiltersWord`), or a
query by a key takes two arguments of one name (`DoublesArgument`).** What is emitted for schema
documents is about the published one or generated, and a generated document is read as what it
declares if all names that are given are names. -/
theorem generated_names_apart_iff {schemaName text : String} {scope : Scope} {first : Compilation}
    (hfirst : (compile schemaName scope text).outcome = .ok first)
    (hfields : Catalog.FieldsAreDistinct first.catalog.document)
    (hkeys : ∀ t ∈ first.catalog.tables, ∀ key ∈ t.keys, key.fields.Nodup) :
    (∀ f ∈ first.fragments, ∀ name, f.location = "schema/" ++ name →
      f = first.catalog.seed ∨
        (∃ e ∈ first.catalog.publishedEdits, f = .ofEdit first.catalog.publishedLocation e) ∨
        ∃ ds, first.catalog.Generates f.location ds ∧ f = .ofText f.location (renderDocument ds)) ∧
    (∀ location ds, first.catalog.Generates location ds →
      Fragment.ofText location (renderDocument ds) ∈ first.fragments ∧
        (GivesNames schemaName scope text →
          Document.parse (renderDocument ds) = .ok ⟨ds.map (·.toDefinition)⟩)) ∧
    ((∀ location ds, first.catalog.Generates location ds → ∀ d ∈ ds, d.toDefinition.NamesApart) ↔
      ∀ t ∈ first.catalog.tables,
        ¬ FiltersWord first.catalog t ∧ ∀ key ∈ t.queryKeys, ¬ DoublesArgument key) := by
  obtain ⟨-, -, hemit⟩ := Compilation.of_compile hfirst
  refine ⟨fun f hf name hhere => ?_, fun location ds hgenerates => ⟨?_, fun hgives => ?_⟩, ?_⟩
  · rcases (Catalog.emits_of_emit hemit f hf).kind with hseed | hedit | hgenerated | haside
    · exact Or.inl hseed
    · exact Or.inr (Or.inl hedit)
    · exact Or.inr (Or.inr hgenerated)
    · exact absurd hhere (haside.ne_schema name)
  · exact Catalog.mem_of_generates hemit hgenerates
  · obtain ⟨hdocument, htables⟩ := Compilation.isNamed hgives hfirst
    exact parse_declarations (hgenerates.isNamed hdocument htables)
  · simp only [Declaration.namesApart_toDefinition]
    exact Catalog.namesApart_iff hemit hfields hkeys

/-- Posts with a field of the name of a word, and slots with a field of the name that others are
glued to. -/
def wordedPosts : String :=
  "type Post @model \x7b id: ID! and: String \x7d
  type Slot @model
    @key(name: \"ByDay\", fields: [\"dayHour\", \"day\", \"hour\"], queryField: \"slotsByDay\") \x7b
    id: ID!
    dayHour: String
    day: String
    hour: String
  \x7d"

/-- What is known of them without looking at generated documents. -/
theorem wordedPosts_runs : Outcome.Holds (Document.parse wordedPosts) fun source =>
    source.IsDistinct ∧
      Outcome.Holds (Catalog.collected source "schema.graphql" none) (·.GivesNames) ∧
      Outcome.Holds (compileDocument "schema.graphql" none source).outcome fun first =>
        (∀ o ∈ first.catalog.document.objects, (o.fields.map (·.name)).Nodup) ∧
        (∀ t ∈ first.catalog.tables, ∀ key ∈ t.keys, key.fields.Nodup) ∧
        (∃ t ∈ first.catalog.tables, ∃ f ∈ storedFields t, f.name = "and" ∧
          t.relation? f.name = none ∧ Outcome.Holds (fieldShape t f) fun shape =>
            first.catalog.category shape.base = .scalar) ∧
        ∃ t ∈ first.catalog.tables, ∃ key ∈ t.queryKeys, key.sortArgument? =
          some key.partition := by
  set_option maxRecDepth 2000 in refine Document.holds_parse rfl ?_
  decide +kernel

/-- A document of theirs is emitted, and read, in which a name is declared twice. -/
theorem wordedPosts_doubled : ∃ (source : Document) (first : Compilation),
    Document.parse wordedPosts = .ok source ∧ source.IsDistinct ∧
      (compile "schema.graphql" none wordedPosts).outcome = .ok first ∧
      (∀ t ∈ first.catalog.tables, ∀ key ∈ t.keys, key.fields.Nodup) ∧
      (∃ t ∈ first.catalog.tables, FiltersWord first.catalog t) ∧
      (∃ t ∈ first.catalog.tables, ∃ key ∈ t.queryKeys, DoublesArgument key) ∧
      ∃ location ds, Fragment.ofText location (renderDocument ds) ∈ first.fragments ∧
        Document.parse (renderDocument ds) = .ok ⟨ds.map (·.toDefinition)⟩ ∧
        ∃ d ∈ ds, ¬ d.toDefinition.NamesApart := by
  obtain ⟨source, hparse, hdistinct, ⟨before, hcollected, hnames⟩, first, hcompile, hfields, hkeys,
    ⟨t, ht, f, hf, hname, hnone, shape, hshape, hscalar⟩, hglued⟩ := wordedPosts_runs
  have hfirst := (outcome_compile_of_parse hparse).trans hcompile
  have hgives := givesNames_of_collected hparse hcollected hnames
  have hword : FiltersWord first.catalog t :=
    ⟨"and", by decide, .field ⟨f, hf, hname, hnone, shape, hshape, Or.inl hscalar⟩⟩
  obtain ⟨-, hemitted, hapart⟩ := generated_names_apart_iff hfirst hfields hkeys
  have hdoubled := mt hapart.1 fun hall => (hall t ht).1 hword
  simp only [not_forall] at hdoubled
  obtain ⟨location, ds, hgenerates, d, hd, htwice⟩ := hdoubled
  obtain ⟨hmem, hread⟩ := hemitted location ds hgenerates
  obtain ⟨s, hs, key, hkey, hsame⟩ := hglued
  exact ⟨source, first, hparse, hdistinct, hfirst, hkeys, ⟨t, ht, hword⟩,
    ⟨s, hs, key, hkey, .glued hsame⟩, location, ds, hmem, hread hgives, d, hd, htwice⟩

end SchemaLoom
