/-
What generated documents give rise to.

If all names that are given are names of the language (`GivesNames`), a generated document is
read as the declarations it was made from (`Surface.parse_declarations`).  The types among them
carry no directives (`IsBare`), so compiling it gathers nothing and emits nothing: all fragments
come from the first compilation.

That the text of declarations can be read back is where the names matter.  Texts that are spliced
into a document could close a type and open another.  Gathering and emitting from a document
without directives are evaluated then, since there is no occurrence and no site to look at.

This is about rounds that come to an end; that they do is shown in the module on how the rounds
end.
-/
import SchemaLoom.Proofs.Compile.Published
import SchemaLoom.Proofs.Surface.Generated

namespace SchemaLoom

open Artifact Surface
open Sdl (Document Scope)

/-! ### Documents without directives

Without directives nothing is collected, and a catalog without tables emits what is shared.  A
document that declares none of these things gives rise to no fragment.
-/

namespace Catalog

variable {c : Catalog}

/-- No directive stands at a site of `document`. -/
def IsBare (document : Document) : Prop := ∀ site ∈ document.sites, site.directives = []

theorem IsBare.occurrences_eq {document : Document} (h : IsBare document) :
    occurrences document = [] := by
  rw [occurrences, List.flatMap_eq_nil_iff]
  intro site hsite
  rw [h site hsite]
  rfl

/-- A document without directives is gathered as it is. -/
theorem IsBare.outcome_gather {document : Document} (h : IsBare document) (schemaName : String)
    (scope : Scope) :
    (gather { document, schemaName, scope }).outcome = .ok { document, schemaName, scope } := by
  have hrun : ∀ phase, (dispatch { document, schemaName, scope } phase).report.outcome
      = .ok { document, schemaName, scope } := by
    intro phase
    rw [dispatch, h.occurrences_eq]
    rfl
  unfold gather
  simp only [Report.outcome_bind, hrun, Outcome.ok_bind]
  rfl

/-- Nothing is emitted where no directives are. -/
theorem IsBare.emit_eq {document : Document} (h : IsBare document) (schemaName : String)
    (scope : Scope) : (emit { document, schemaName, scope }).outcome = .ok [] := by
  have hstrip : stripFragments { document, schemaName, scope } = [] := by
    rw [stripFragments, List.map_eq_nil_iff, stripEdits, List.flatMap_eq_nil_iff]
    intro site hsite
    have hnone := h site (List.mem_filter.1 hsite).1
    unfold stripSite
    split
    · rfl
    · rw [internalNames, hnone]
      rfl
  simp only [emit, Report.outcome_bind, Report.outcome_mapM, Report.outcome_lift, hstrip]
  rfl

end Catalog

/-! ### Generated documents -/

/-- The text of declarations that are made of names is read as what they say, also if there are
none. -/
theorem Surface.parse_declarations {ds : List Declaration} (h : ∀ d ∈ ds, d.IsNamed) :
    Document.parse (renderDocument ds) = .ok ⟨ds.map (·.toDefinition)⟩ := by
  by_cases hsome : ds = []
  · subst hsome
    rfl
  · exact parse_renderDocument hsome h

/-- Types that are declared carry no directives. -/
theorem Surface.isBare_declarations (ds : List Declaration) :
    Catalog.IsBare ⟨ds.map (·.toDefinition)⟩ := by
  have hdeclaration : ∀ d : Sdl.Declaration, d.toDefinition ∈ ds.map (·.toDefinition) →
      d.directives = [] ∧ ∀ f ∈ d.fields, f.directives = [] := by
    intro d hd
    obtain ⟨declaration, -, hsame⟩ := List.mem_map.1 hd
    cases declaration with
    | object name fields =>
      cases d with
      | object body =>
        cases hsame
        refine ⟨rfl, fun f hf => ?_⟩
        obtain ⟨field, hfield, rfl⟩ := List.mem_map.1 hf
        obtain ⟨e, -, rfl⟩ := List.mem_map.1 hfield
        rfl
      | input body => cases hsame
    | root name =>
      cases d with
      | object body =>
        cases hsame
        exact ⟨rfl, fun f hf => by cases hf⟩
      | input body => cases hsame
    | input name fields =>
      cases d with
      | object body => cases hsame
      | input body =>
        cases hsame
        refine ⟨rfl, fun f hf => ?_⟩
        obtain ⟨field, hfield, rfl⟩ := List.mem_map.1 hf
        obtain ⟨e, -, rfl⟩ := List.mem_map.1 hfield
        rfl
    | extension root operations => cases d <;> cases hsame
    | enum name values => cases d <;> cases hsame
  intro site hsite
  cases site with
  | type d =>
    exact (hdeclaration d (Document.mem_declarations.1 (Document.type_mem_sites.1 hsite))).1
  | field d f =>
    obtain ⟨hd, hf⟩ := Document.field_mem_sites.1 hsite
    exact (hdeclaration d (Document.mem_declarations.1 hd)).2 f hf

/-- Compiling declarations that are made of names gathers nothing but the document. -/
theorem catalog_of_declarations {ds : List Declaration} (h : ∀ d ∈ ds, d.IsNamed)
    {schemaName : String} {scope : Scope} {c : Compilation}
    (hcompile : (compile schemaName scope (renderDocument ds)).outcome = .ok c) :
    c.catalog = { document := ⟨ds.map (·.toDefinition)⟩, schemaName, scope } := by
  obtain ⟨document, hparse, hdocument⟩ := of_compile hcompile
  rw [parse_declarations h] at hparse
  cases hparse
  obtain ⟨hgather, -⟩ := of_compileDocument hdocument
  rw [(isBare_declarations ds).outcome_gather] at hgather
  exact (Except.ok.inj hgather).symm

/-- **Compiling declarations that are made of names gives rise to nothing.** -/
theorem fragments_of_declarations {ds : List Declaration} (h : ∀ d ∈ ds, d.IsNamed)
    {schemaName : String} {scope : Scope} {c : Compilation}
    (hcompile : (compile schemaName scope (renderDocument ds)).outcome = .ok c) :
    c.fragments = [] := by
  have hcatalog := catalog_of_declarations h hcompile
  obtain ⟨document, -, hdocument⟩ := of_compile hcompile
  obtain ⟨-, hemit⟩ := of_compileDocument hdocument
  rw [hcatalog, (isBare_declarations ds).emit_eq] at hemit
  exact (Except.ok.inj hemit).symm

variable {schemaName text : String} {scope : Scope} {first : Compilation}

/-- The text gives names only where generated declarations take them up: what its directives declare
gives no other texts for names. -/
def GivesNames (schemaName : String) (scope : Scope) (text : String) : Prop :=
  ∀ document before, Document.parse text = .ok document →
    Catalog.collected document schemaName scope = .ok before → before.GivesNames

/-- The catalog of a text that gives names only. -/
theorem Compilation.isNamed (hgives : GivesNames schemaName scope text)
    (h : (compile schemaName scope text).outcome = .ok first) :
    first.catalog.document.IsNamed ∧ first.catalog.IsNamed := by
  obtain ⟨document, hparse, hdocument⟩ := SchemaLoom.of_compile h
  obtain ⟨hgather, -⟩ := of_compileDocument hdocument
  have hnamed := Document.isNamed_of_parse hparse
  obtain ⟨-, hsame, -⟩ := Catalog.rooted_of_gather hgather
  refine ⟨hsame ▸ hnamed, ?_⟩
  exact Catalog.isNamed_of_gather hnamed hgather fun before hbefore =>
    hgives document before hparse hbefore

/-- What follows from a text that gives names only are declarations that are made of names. -/
theorem Follows.isNamed (hgives : GivesNames schemaName scope text)
    (hfirst : (compile schemaName scope text).outcome = .ok first) {d : String × String}
    (h : Follows scope first d) :
    ∃ ds : List Declaration, d.2 = renderDocument ds ∧ ∀ e ∈ ds, e.IsNamed := by
  induction h with
  | generated hmem hgenerated =>
    obtain ⟨hdocument, htables⟩ := Compilation.isNamed hgives hfirst
    obtain ⟨-, -, hemit⟩ := Compilation.of_compile hfirst
    obtain ⟨location, ds, hgenerates, -, rfl⟩ :=
      (Catalog.emits_of_emit hemit _ hmem).generated hgenerated
    exact ⟨ds, rfl, hgenerates.isNamed hdocument htables⟩
  | further hfollows hnext hmem hgenerated ih =>
    obtain ⟨ds, htext, hnamed⟩ := ih
    rw [htext] at hnext
    rw [fragments_of_declarations hnamed hnext] at hmem
    cases hmem

/-- **All fragments of a text that gives names only are those of its own compilation.** -/
theorem compileAll_eq_first (hgives : GivesNames schemaName scope text) {fragments : List Fragment}
    (h : (compileAll schemaName scope text).outcome = .ok fragments) :
    ∃ first, (compile schemaName scope text).outcome = .ok first ∧ fragments = first.fragments := by
  obtain ⟨first, hfirst, cs, rfl, heach⟩ := of_compileAll h
  refine ⟨first, hfirst, ?_⟩
  have hnone : cs.flatMap (·.fragments) = [] := by
    rw [List.flatMap_eq_nil_iff]
    intro c hc
    obtain ⟨d, hfollows, hcompile⟩ := heach c hc
    obtain ⟨ds, htext, hnamed⟩ := hfollows.isNamed hgives hfirst
    rw [htext] at hcompile
    exact fragments_of_declarations hnamed hcompile
  rw [hnone, List.append_nil]

end SchemaLoom
