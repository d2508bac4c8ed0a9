/-
Texts that are emitted for schema documents.

Names that directives give go into generated declarations and fields as they are.  If they are
names of the language, everything that is emitted for a schema document can be read: content as a
document (`Emits.isDocumentText`), and what an edit puts in as a field (`Publishes.parse_text`).

A compilation does not look at them: a text that another name makes malformed is emitted, and
reported only when files are put together.

The conditions are less than that all names of the catalog are names.  `GivesFields` asks for
those that go into fields of the published schema, and the key of a relation of an input type
that every input has is dropped instead of written.
-/
import SchemaLoom.Proofs.Artifact.SchemaText
import SchemaLoom.Proofs.Catalog.Placement
import SchemaLoom.Proofs.Compile.Ending
import SchemaLoom.Proofs.Compile.PublishedFile
import SchemaLoom.Proofs.Sdl.Restoring.Document

namespace SchemaLoom

open Artifact Surface
open Sdl (Document Edit Field InputField IsDocumentText isName)

/-! ### Fields of the published schema

The fields that edits put in are printed from names, as far as the arguments of directives give
names (`GivesFields`).
-/

namespace Catalog

variable {c : Catalog}

/-- The key that the binding gives to an input type is a name.  A relation whose key every input has
is dropped. -/
def GivesKey : Binding → Prop
  | .function .. => True
  | .foreignInput _ _ key _ => key ≠ "id" → isName key = true

instance : (b : Binding) → Decidable (GivesKey b)
  | .function .. => isTrue trivial
  | .foreignInput _ _ key _ => inferInstanceAs (Decidable (key ≠ "id" → isName key = true))

/-- What the names that go into the fields of the published schema have to be. -/
structure GivesFields (c : Catalog) : Prop where
  tenants : ∀ t ∈ c.tables, ∀ tenancy ∈ t.tenancy, isName tenancy.field = true
  keys : ∀ b ∈ c.bindings, GivesKey b

instance (c : Catalog) : Decidable c.GivesFields :=
  decidable_of_iff ((∀ t ∈ c.tables, ∀ tenancy ∈ t.tenancy, isName tenancy.field = true) ∧
      ∀ b ∈ c.bindings, GivesKey b)
    ⟨fun h => ⟨h.1, h.2⟩, fun h => ⟨h.tenants, h.keys⟩⟩

/-- The field that a relation of an input type is replaced by. -/
theorem GivesFields.isNamed_foreign (h : c.GivesFields) {type field key text : String}
    {isCondition : Bool} (hbinding : Binding.foreignInput type field key isCondition ∈ c.bindings)
    (htext : (foreignInputEdit type field key isCondition).text? = some text) :
    ∃ e : Entry, e.IsNamed ∧ text = e.render := by
  unfold foreignInputEdit at htext
  split at htext
  · cases htext
  next hother =>
    cases htext
    exact ⟨_, Entry.isNamed_plain (h.keys _ hbinding hother) (by split <;> decide), rfl⟩

/-- **What an edit puts into the published schema is a field.** -/
theorem Publishes.parse_text {e : Edit} (he : c.Publishes e) (hrooted : c.Rooted)
    (hnamed : c.document.IsNamed) (hgives : c.GivesFields) {text : String}
    (htext : e.text? = some text) : ∃ f, Field.parse text = .ok f := by
  cases he with
  | access _ _ => cases htext
  | @tenant t tenancy htable htenancy _ =>
    cases htext
    exact ⟨_, (Entry.isNamed_plain (hgives.tenants t htable tenancy htenancy) (by decide)).parse⟩
  | @relation t r htable hrelation =>
    cases htext
    obtain ⟨hfield, htarget⟩ := hrooted.isName_relation hnamed htable hrelation
    exact ⟨_, (isNamed_listedField hfield htarget).parse⟩
  | computed _ _ => cases htext
  | foreign hbinding =>
    obtain ⟨entry, hentry, rfl⟩ := hgives.isNamed_foreign hbinding htext
    exact ⟨_, hentry.parse⟩
  | strip _ _ _ _ => cases htext

/-- What an edit puts into an input type is a field of one. -/
theorem GivesFields.parseInput (h : c.GivesFields) {b : Binding} (hb : b ∈ c.bindings) {e : Edit}
    (he : e ∈ bindingEdits c b) {text : String} (htext : e.text? = some text) :
    ∃ f, InputField.parse text = .ok f := by
  cases b with
  | function type field source =>
    rw [bindingEdits] at he
    split at he
    · cases he
    · cases List.mem_singleton.1 he
      cases htext
  | foreignInput type field key isCondition =>
    cases List.mem_singleton.1 he
    obtain ⟨entry, hentry, rfl⟩ := h.isNamed_foreign hb htext
    exact ⟨_, hentry.parseInput⟩

/-! ### Documents -/

theorem medium_bindings (stem : String) : medium (stem ++ ".mapping.yml") ≠ .sdl :=
  medium_structured_of (show ".mapping" ++ ".yml" = ".mapping.yml" from rfl)

theorem medium_stepsLocation (table : String) : medium (stepsLocation table) ≠ .sdl :=
  medium_structured_of (show ".functions" ++ ".yml" = ".functions.yml" from rfl)

/-- Content that is emitted for a schema document is the text of a document, if what is generated is
and the document itself can be read back. -/
theorem Emits.isDocumentText_of {f : Fragment} (h : c.Emits f)
    (hreads : ∀ location ds, c.Generates location ds → IsDocumentText (renderDocument ds))
    (hback : Document.parse c.document.render = .ok c.document) (hplain : f.patch = none)
    (hmedium : medium f.location = .sdl) : ∃ s ∈ f.contentText?, IsDocumentText s := by
  cases h with
  | seed => exact ⟨_, rfl, _, hback⟩
  | edit _ => cases hplain
  | document hgenerates => exact ⟨_, rfl, hreads _ _ hgenerates⟩
  | template _ _ => exact absurd (hmedium.symm.trans (medium_template _)) (by decide)
  | step _ _ _ => exact absurd (hmedium.symm.trans (medium_template _)) (by decide)
  | table _ _ => exact absurd hmedium (medium_tableLocation _)
  | tableEdit _ => cases hplain
  | bindings _ => exact absurd hmedium (medium_bindings _)
  | steps _ => exact absurd hmedium (medium_stepsLocation _)
  | binding _ => exact absurd hmedium (medium_bindings _)
  | queryBinding _ _ => exact absurd hmedium (medium_bindings _)

/-- **Content that is emitted for a schema document is the text of a document** (`IsDocumentText`),
if the names that are given are names of the language and the document itself can be read back. -/
theorem Emits.isDocumentText {f : Fragment} (h : c.Emits f) (hdocument : c.document.IsNamed)
    (htables : c.IsNamed) (hback : Document.parse c.document.render = .ok c.document)
    (hplain : f.patch = none) (hmedium : medium f.location = .sdl) :
    ∃ s ∈ f.contentText?, IsDocumentText s :=
  h.isDocumentText_of (fun _ _ hgenerates =>
    ⟨_, parse_declarations (hgenerates.isNamed hdocument htables)⟩) hback hplain hmedium

/-- What is put into a document is put into the published schema. -/
theorem Emits.publishes {f : Fragment} (h : c.Emits f) {s : String} (htext : s ∈ f.fieldText?) :
    ∃ e, c.Publishes e ∧ e.text? = some s := by
  cases h with
  | edit he => exact ⟨_, publishes_of_mem he, htext⟩
  | _ => cases htext

end Catalog

/-! ### Compilations -/

variable {schemaName text : String} {scope : Sdl.Scope} {k : Compilation}

/-- **If the names that directives give are names of the language, all content that is emitted for
schema documents is the text of a document, and all that is put in as a field is one.**  The
document itself has to be one that is read back from what it is printed as.  Nothing of this is
checked by a compilation: a malformed text is reported when the schema document is put together,
whatever exists in its place, and no files come of the compilation then. -/
theorem emitted_text_of_compile (hcompile : (compile schemaName scope text).outcome = .ok k) :
    (GivesNames schemaName scope text → k.catalog.GivesFields → k.catalog.document.IsApart →
      (∀ f ∈ k.fragments, f.patch = none → medium f.location = .sdl →
          ∃ s ∈ f.contentText?, IsDocumentText s) ∧
        (∀ f ∈ k.fragments, ∀ s ∈ f.fieldText?, ∃ field, Field.parse s = .ok field) ∧
        ∀ b ∈ k.catalog.bindings, ∀ e ∈ Catalog.bindingEdits k.catalog b, ∀ s ∈ e.text?,
          ∃ field, InputField.parse s = .ok field) ∧
      ∀ f ∈ k.fragments, medium f.location = .sdl → f.IsMalformed → ∀ existing,
        (∃ fault, assembleBody f.location (existing.lookup f.location)
            (addressedTo f.location k.fragments) = .error fault ∧ fault.IsOfDocument) ∧
          ∀ files, (assemble k.fragments existing).outcome ≠ .ok files := by
  obtain ⟨hrooted, -, hemit⟩ := Compilation.of_compile hcompile
  have hemits := Catalog.emits_of_emit hemit
  refine ⟨fun hgives hfields hapart => ?_, fun f hf hmedium hmalformed existing => ⟨?_, ?_⟩⟩
  · obtain ⟨hdocument, htables⟩ := Compilation.isNamed hgives hcompile
    have hback := Document.parse_render (Compilation.document_eq hcompile) hapart
    refine ⟨fun f hf => ?_, fun f hf s hs => ?_, fun b hb e he s => hfields.parseInput hb he⟩
    · exact (hemits f hf).isDocumentText hdocument htables hback
    · obtain ⟨e, he, htext⟩ := (hemits f hf).publishes hs
      exact he.parse_text hrooted hdocument hfields htext
  · have hhere : f ∈ addressedTo f.location k.fragments := List.mem_filter.2 ⟨hf, by simp⟩
    exact assembleBody_malformed hmedium hhere hmalformed _
  · exact assemble_malformed hf hmedium hmalformed existing

/-- Posts of tenants, which authors have many of, and an input that refers to an author. -/
def tenantPosts : String :=
  "type Author @model \x7b posts: [Post] @connection(name: \"P\") \x7d
type Post @model @multiTenancy \x7b author: Author @connection(name: \"P\") \x7d
input Draft \x7b author: Author @connection(foreignKey: \"writer\") \x7d"

/-- Posts with a query that has no name. -/
def spacedQuery : String :=
  "type Post @model @key(fields: [\"day\"], name: \"D\", queryField: \"a b\") \x7b day: Int \x7d"

theorem tenantPosts_emitted :
    Outcome.Holds (compile "schema.graphql" none tenantPosts).outcome (fun k =>
      GivesNames "schema.graphql" none tenantPosts ∧ k.catalog.GivesFields ∧
        k.catalog.document.IsApart ∧
        (∀ f ∈ k.fragments, f.patch = none → medium f.location = .sdl →
          ∃ s ∈ f.contentText?, IsDocumentText s) ∧
        ∀ f ∈ k.fragments, ∀ s ∈ f.fieldText?, ∃ field, Field.parse s = .ok field) ∧
      Outcome.Holds (compile "schema.graphql" none spacedQuery).outcome fun k =>
        ∀ existing files, (assemble k.fragments existing).outcome ≠ .ok files := by
  refine ⟨?_, ?_⟩
  · have hfacts : Outcome.Holds (Document.parse tenantPosts) fun document =>
        Outcome.Holds (Catalog.collected document "schema.graphql" none) (·.GivesNames) ∧
          Outcome.Holds (compileDocument "schema.graphql" none document).outcome fun k =>
            k.catalog.GivesFields ∧ k.catalog.document.IsApart := by
      decide +kernel
    obtain ⟨document, hparse, ⟨before, hcollected, hnames⟩, k, hdocument, hfields, hapart⟩ := hfacts
    have hcompile := (outcome_compile_of_parse hparse).trans hdocument
    have hgives := givesNames_of_collected hparse hcollected hnames
    obtain ⟨hcontent, hput, -⟩ := (emitted_text_of_compile hcompile).1 hgives hfields hapart
    exact ⟨k, hcompile, hgives, hfields, hapart, hcontent, hput⟩
  · have hfacts : Outcome.Holds (compile "schema.graphql" none spacedQuery).outcome fun k =>
        ∃ f ∈ k.fragments, f.location = "schema/Post.a b.graphql" ∧ f.IsMalformed := by
      decide +kernel
    obtain ⟨k, hcompile, f, hf, hlocation, hmalformed⟩ := hfacts
    have hmedium : medium f.location = .sdl := by
      rw [hlocation]
      decide +kernel
    exact ⟨k, hcompile, fun existing =>
      ((emitted_text_of_compile hcompile).2 f hf hmedium hmalformed existing).2⟩

/-- A type without members, behind which a query has nothing but its selections. -/
def bareQuery : String := "type Post @model query \x7b a \x7d"

/-- Posts whose tenants are told by a field that has no name. -/
def spacedTenant : String := "type Post @model @multiTenancy(field: \"a b\") \x7b id: ID! \x7d"

/-- A compilation accepts a name that makes a generated document malformed, one that makes a field
malformed, and a document that cannot be read back. -/
theorem malformed_text_accepted :
    Outcome.Holds (compile "schema.graphql" none spacedQuery).outcome (fun k =>
      ∃ f ∈ k.fragments, f.location = "schema/Post.a b.graphql" ∧
        ∃ s ∈ f.contentText?, ¬ IsDocumentText s) ∧
      Outcome.Holds (compile "schema.graphql" none spacedTenant).outcome (fun k =>
        ∃ f ∈ k.fragments, ∃ s ∈ f.fieldText?, ¬ ∃ field, Field.parse s = .ok field) ∧
      Outcome.Holds (compile "schema.graphql" none bareQuery).outcome fun k =>
        ∃ f ∈ k.fragments, f.location = "schema/schema.graphql" ∧
          ∃ s ∈ f.contentText?, ¬ IsDocumentText s :=
  ⟨by decide +kernel, by decide +kernel, by decide +kernel⟩

end SchemaLoom
