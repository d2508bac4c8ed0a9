/-
Resolvers of a compiled document share no files, if names leave them apart.

The types and the fields of a document are told apart by their names, and a field declares one
relation and one function at most.  Then the only names that can bring two resolvers together are
those that queries by keys are given, and those of fields that stand where an operation is
generated.  What is emitted is apart just if none of them does.

That a location is addressed by one fragment is what keeps two resolvers apart: of two templates
at one place the file would have both texts, one after the other.  Types that are read from a
text have names without points (`point_not_mem_of_parse`), which is all that telling the files
apart needs.
-/
import SchemaLoom.Proofs.Catalog.ResolverField

namespace SchemaLoom

open Artifact
open Sdl (Document Scope)

/-! ### Files of one fragment -/

/-- If no location of a sort is addressed twice, each file there is made of one fragment. -/
theorem exists_group_eq_singleton {p : String → Bool} {fs : List Fragment}
    (h : ((fs.map (·.location)).filter p).Nodup) {g : String × List Fragment}
    (hg : g ∈ groups fs) (hsort : p g.1 = true) : ∃ f, g.2 = [f] := by
  obtain ⟨location, hlocation, rfl⟩ := List.mem_map.1 hg
  have hcount : (addressedTo location fs).length = (fs.map (·.location)).count location := by
    rw [List.count_eq_countP, List.countP_map, List.countP_eq_length_filter]
    rfl
  have hsome : 0 < (fs.map (·.location)).count location :=
    List.count_pos_iff.2 (Text.mem_distinct.1 hlocation)
  have honce : (fs.map (·.location)).count location ≤ 1 := by
    rw [← List.count_filter hsort]
    exact List.nodup_iff_count_le_one.1 h location
  exact List.length_eq_one_iff.1 (hcount.trans (Nat.le_antisymm honce hsome))

/-! ### Compiled documents -/

/-- Types of a text have names without points. -/
theorem point_not_mem_of_parse {text : String} {document : Document}
    (hparse : Document.parse text = .ok document) {d : Sdl.Declaration}
    (hd : d ∈ document.declarations) : '.' ∉ d.name.toList := by
  have hnamed := Document.isNamed_of_parse hparse _ (Document.mem_declarations.1 hd)
  have hname : Sdl.isName d.name = true := by cases d <;> exact hnamed.1
  intro hpoint
  exact absurd (Sdl.continuesName_of_isName hname '.' hpoint) (by decide)

variable {schemaName text : String} {scope : Scope} {document : Document} {k : Compilation}

/-- **No two resolvers share a file just if the names of queries and of fields leave them apart
(`Catalog.ResolversAreApart`).** Then every template, and every file of bindings, is put together
from one fragment. -/
theorem resolvers_apart_iff (hparse : Document.parse text = .ok document)
    (hdistinct : document.IsDistinct) (hrelations : Catalog.DeclaresOnce document .connection)
    (hfunctions : Catalog.DeclaresOnce document .function)
    (hcompile : (compile schemaName scope text).outcome = .ok k) :
    (k.catalog.ResolversAreApart ↔
        ((k.fragments.map (·.location)).filter isTemplateFile).Nodup ∧
          ((k.fragments.map (·.location)).filter isBindingFile).Nodup) ∧
      (k.catalog.ResolversAreApart → ∀ g ∈ groups k.fragments,
        isTemplateFile g.1 = true ∨ isBindingFile g.1 = true → ∃ f, g.2 = [f]) := by
  obtain ⟨found, hfound, hdocument⟩ := of_compile hcompile
  obtain rfl : found = document := Except.ok.inj (hfound.symm.trans hparse)
  obtain ⟨hgather, hemit⟩ := of_compileDocument hdocument
  obtain ⟨hrooted, hsame, -⟩ := Catalog.rooted_of_gather hgather
  have hnamed := Document.isNamed_of_parse hparse
  rw [Catalog.outcome_gather] at hgather
  obtain ⟨before, hbefore, hclassified⟩ := Outcome.of_map_eq_ok hgather
  have hdeclares := Catalog.declares_of_collected hbefore
  have hkin : before.Kin k.catalog := hclassified ▸ Catalog.kin_classify before
  have hplain : ∀ p ∈ k.catalog.places, p.IsPlain := by
    refine Catalog.isPlain_places (fun t ht => ?_) fun type field source hbinding => ?_
    · exact point_not_mem_of_parse hparse (hsame ▸ (hrooted.mem_declarations ht).1)
    · obtain ⟨d, f, hsite, -, rfl, -⟩ := hrooted.functions type field source hbinding
      rw [hsame, Document.field_mem_sites] at hsite
      exact point_not_mem_of_parse hparse hsite.1
  have hfiles : (resolverFiles k.fragments).Nodup ↔ k.catalog.ResolversAreApart := by
    rw [Catalog.resolverFiles_emit hemit, ResolverPlace.nodup_flatMap_locations hplain,
      Catalog.nodup_places_iff hrooted.tableNames, Catalog.resolversAreApart_iff hrooted.tableNames
        (Catalog.nodup_relationFields hdistinct hrelations hdeclares hkin hrooted.tableNames)
        (Catalog.nodup_functionFields hdistinct hfunctions hdeclares hkin)]
  refine ⟨hfiles.symm.trans nodup_filter_or, fun hapart g hg hsort => ?_⟩
  exact exists_group_eq_singleton (hfiles.2 hapart) hg ((Bool.or_eq_true _ _).mpr hsort)

/-- Posts with a relation, a query by a key, and a field that a function computes. -/
def postsApart : String :=
  "type Query \x7b feed: [Post] @function(name: \"feed\") \x7d
  type Author @model \x7b id: ID! \x7d
  type Post @model @key(fields: [\"writer\"], name: \"W\", queryField: \"postsByWriter\") \x7b
    id: ID! writer: String author: Author @connection(name: \"P\") \x7d"

theorem postsApart_resolvers : ∃ document k, Document.parse postsApart = .ok document ∧
    (compile "schema.graphql" none postsApart).outcome = .ok k ∧ k.catalog.ResolversAreApart ∧
    ((k.fragments.map (·.location)).filter isTemplateFile).Nodup ∧
    ((k.fragments.map (·.location)).filter isBindingFile).Nodup := by
  have hfacts : Outcome.Holds (Document.parse postsApart) fun document =>
      document.IsDistinct ∧ Catalog.DeclaresOnce document .connection ∧
        Catalog.DeclaresOnce document .function ∧
        Outcome.Holds (compile "schema.graphql" none postsApart).outcome fun k =>
          k.catalog.ResolversAreApart := by
    decide +kernel
  obtain ⟨document, hparse, hdistinct, hrelations, hfunctions, k, hcompile, hapart⟩ := hfacts
  obtain ⟨hiff, -⟩ := resolvers_apart_iff hparse hdistinct hrelations hfunctions hcompile
  exact ⟨document, k, hparse, hcompile, hapart, hiff.1 hapart⟩

/-- Posts with a relation and a query by a key that has the name of the relation. -/
def postsMerged : String :=
  "type Author @model \x7b id: ID! \x7d
  type Post @model @key(fields: [\"writer\"], name: \"W\", queryField: \"author\") \x7b
    id: ID! writer: String author: Author @connection(name: \"P\") \x7d"

/-- The bindings of the query and of the relation are addressed to one file. -/
theorem postsMerged_binding : ∃ document k, Document.parse postsMerged = .ok document ∧
    document.IsDistinct ∧ Catalog.DeclaresOnce document .connection ∧
    Catalog.DeclaresOnce document .function ∧
    (compile "schema.graphql" none postsMerged).outcome = .ok k ∧
    ¬ ((k.fragments.map (·.location)).filter isBindingFile).Nodup ∧
    (addressedTo "resources/appsync/Post.author.mapping.yml" k.fragments).length = 2 := by
  have hfacts : Outcome.Holds (Document.parse postsMerged) fun document =>
      document.IsDistinct ∧ Catalog.DeclaresOnce document .connection ∧
        Catalog.DeclaresOnce document .function ∧
        Outcome.Holds (compile "schema.graphql" none postsMerged).outcome fun k =>
          ¬ ((k.fragments.map (·.location)).filter isBindingFile).Nodup ∧
            (addressedTo "resources/appsync/Post.author.mapping.yml" k.fragments).length = 2 := by
    decide +kernel
  obtain ⟨document, hparse, hdistinct, hrelations, hfunctions, k, hcompile, hshared, htwo⟩ := hfacts
  exact ⟨document, k, hparse, hdistinct, hrelations, hfunctions, hcompile, hshared, htwo⟩

end SchemaLoom
