/-
How the rounds end.

A document that was generated from a text that gives names only compiles, and nothing comes of it
(`compile_declarations`).  So the first round takes up the generated documents, the second finds
nothing to add, and there is no third: the limit on their number is never met.

Nothing comes of a document that has no directives at object types, input types and their fields.
Generated documents extend the root types by operations that do have directives, but extensions
are not among the sites that are looked at.

A text that gives other texts than names, say a query that closes its own type, may generate
documents that go on generating.  That is what the limit is for, and nothing is said of it here.
-/
import SchemaLoom.Proofs.Compile.Generated

namespace SchemaLoom

open Artifact Surface
open Sdl (Document Scope)

/-! ### Single documents -/

/-- **Declarations that are made of names compile, and nothing comes of them**: what
`renderDocument` prints holds no directive that the compiler knows. -/
theorem compile_declarations {ds : List Declaration} (h : ∀ d ∈ ds, d.IsNamed)
    (schemaName : String) (scope : Scope) :
    ∃ c, (compile schemaName scope (renderDocument ds)).outcome = .ok c ∧ c.fragments = [] := by
  have hbare := isBare_declarations ds
  have hparse : parseSchema schemaName (renderDocument ds) = .ok ⟨ds.map (·.toDefinition)⟩ := by
    rw [parseSchema, parse_declarations h]
    rfl
  refine ⟨⟨{ document := ⟨ds.map (·.toDefinition)⟩, schemaName, scope }, []⟩, ?_, rfl⟩
  unfold compile compileDocument
  simp only [Report.outcome_bind, Report.outcome_lift, hparse, Outcome.ok_bind,
    hbare.outcome_gather, hbare.emit_eq]
  rfl

/-! ### Rounds

A round is idle if compiling what is pending leaves everything as it is but the notices (`Idle`).
The first round finds all generated documents, and the second one is idle.
-/

namespace Rounds

variable {scope : Scope} {r : Rounds}

/-- The document `d` compiles and nothing comes of it. -/
def Idle (scope : Scope) (d : String × String) : Prop :=
  ∃ c, (compile d.1 scope d.2).outcome = .ok c ∧ c.fragments = []

theorem Idle.compileOne_eq {d : String × String} (h : Idle scope d) :
    (compileOne scope r d).outcome = .ok r := by
  obtain ⟨c, hcompile, hnone⟩ := h
  unfold compileOne
  rw [Report.outcome_bind, hcompile, Outcome.ok_bind, hnone, List.append_nil]
  rfl

theorem foldlM_of_idle {ds : List (String × String)} (h : ∀ d ∈ ds, Idle scope d) :
    (ds.foldlM (compileOne scope) r).outcome = .ok r := by
  induction ds with
  | nil => rfl
  | cons d ds ih =>
    rw [List.foldlM_cons, Report.outcome_bind, (h d List.mem_cons_self).compileOne_eq,
      Outcome.ok_bind]
    exact ih fun other hother => h other (List.mem_cons_of_mem d hother)

/-- A round of documents of which nothing comes leaves nothing to compile. -/
theorem next_of_idle (h : ∀ d ∈ r.pending, Idle scope d) :
    (r.next scope).outcome = .ok { r with pending := [] } :=
  foldlM_of_idle h

theorem run_of_pending_eq_nil (done more : Nat) (h : r.pending = []) :
    (run scope done more r).outcome = .ok r := by
  unfold run
  rw [h]
  rfl

/-- A last round suffices for documents of which nothing comes. -/
theorem run_of_idle (done more : Nat) (h : ∀ d ∈ r.pending, Idle scope d) :
    (run scope done (more + 1) r).outcome = .ok { r with pending := [] } := by
  by_cases hnone : r.pending = []
  · rw [run_of_pending_eq_nil done (more + 1) hnone, ← hnone]
  · unfold run
    rw [if_neg (by simpa using hnone)]
    simp only [Report.outcome_bind, next_of_idle h, Outcome.ok_bind]
    exact run_of_pending_eq_nil (done + 1) more rfl

end Rounds

variable {schemaName text : String} {scope : Scope} {first : Compilation}

/-- What a first round comes to. -/
theorem exists_first_round (hfirst : (compile schemaName scope text).outcome = .ok first) :
    ∃ r : Rounds, r.fragments = first.fragments ∧
      (∀ d ∈ r.pending, ∃ f ∈ first.fragments,
        Rounds.generated? first.catalog.publishedLocation f = some d) ∧
      ∀ more, (Rounds.run scope 0 (more + 1)
          { known := [text], pending := [(schemaName, text)] }).outcome
        = (Rounds.run scope 1 more r).outcome := by
  obtain ⟨hfragments, hpending⟩ := Rounds.look_all first.catalog.publishedLocation first.fragments
    { known := [text], pending := [], fragments := [] ++ first.fragments }
  refine ⟨_, hfragments, ?_, ?_⟩
  · intro d hd
    rcases hpending d hd with hnone | hgenerated
    · cases hnone
    · exact hgenerated
  · intro more
    rw [Rounds.run]
    simp only [List.isEmpty_cons, Bool.false_eq_true, ↓reduceIte, Rounds.next, List.foldlM_cons,
      List.foldlM_nil, bind_pure, Report.outcome_bind, Rounds.compileOne, hfirst, Outcome.ok_bind]
    rfl

/-- What a text that gives names only generates compiles, and nothing comes of it. -/
theorem idle_of_generates (hgives : GivesNames schemaName scope text)
    (hfirst : (compile schemaName scope text).outcome = .ok first) {location : String}
    {ds : List Declaration} (hgenerates : first.catalog.Generates location ds) :
    Rounds.Idle scope (fileName location, renderDocument ds) := by
  obtain ⟨hdocument, htables⟩ := Compilation.isNamed hgives hfirst
  exact compile_declarations (hgenerates.isNamed hdocument htables) (fileName location) scope

/-- If nothing comes of what is generated, there are at most two rounds. -/
theorem exists_last_round (hfirst : (compile schemaName scope text).outcome = .ok first)
    (hallidle : ∀ location ds, first.catalog.Generates location ds →
      Rounds.Idle scope (fileName location, renderDocument ds)) :
    ∃ last : Rounds, last.pending = [] ∧ last.fragments = first.fragments ∧ ∀ limit ≥ 2,
      (Rounds.run scope 0 limit { known := [text], pending := [(schemaName, text)] }).outcome
        = .ok last := by
  obtain ⟨-, -, hemit⟩ := Compilation.of_compile hfirst
  obtain ⟨r, hfragments, hpending, hround⟩ := exists_first_round hfirst
  have hidle : ∀ d ∈ r.pending, Rounds.Idle scope d := by
    intro d hd
    obtain ⟨f, hf, htaken⟩ := hpending d hd
    obtain ⟨location, ds, hgenerates, -, rfl⟩ :=
      (Catalog.emits_of_emit hemit f hf).generated htaken
    exact hallidle location ds hgenerates
  refine ⟨{ r with pending := [] }, rfl, hfragments, fun limit hlimit => ?_⟩
  obtain ⟨more, rfl⟩ := Nat.exists_eq_add_of_le' hlimit
  rw [hround (more + 1)]
  exact Rounds.run_of_idle 1 more hidle

/-- If nothing comes of what is generated, all fragments are those of the first compilation. -/
theorem outcome_compileAll_of_idle (hfirst : (compile schemaName scope text).outcome = .ok first)
    (hidle : ∀ location ds, first.catalog.Generates location ds →
      Rounds.Idle scope (fileName location, renderDocument ds)) :
    (compileAll schemaName scope text).outcome = .ok first.fragments := by
  obtain ⟨last, -, hfragments, hlast⟩ := exists_last_round hfirst hidle
  unfold compileAll
  simp only [Report.outcome_bind, hlast Rounds.limit (by decide), Outcome.ok_bind]
  exact congrArg Except.ok hfragments

theorem outcome_compileAll (hgives : GivesNames schemaName scope text)
    (hfirst : (compile schemaName scope text).outcome = .ok first) :
    (compileAll schemaName scope text).outcome = .ok first.fragments :=
  outcome_compileAll_of_idle hfirst fun _ _ => idle_of_generates hgives hfirst

/-- **The fragments of a text that gives names only are those of its own compilation.**  Every
document that it generates compiles, and nothing comes of it, so there are at most two rounds. -/
theorem compileAll_eq_compile (hgives : GivesNames schemaName scope text)
    (hfirst : (compile schemaName scope text).outcome = .ok first) :
    (compileAll schemaName scope text).outcome = .ok first.fragments ∧
      (∀ location ds, first.catalog.Generates location ds →
        ∃ c, (compile (fileName location) scope (renderDocument ds)).outcome = .ok c ∧
          c.fragments = []) ∧
      ∀ limit ≥ 2, ∃ last : Rounds,
        (Rounds.run scope 0 limit { known := [text], pending := [(schemaName, text)] }).outcome
            = .ok last ∧
          last.pending = [] ∧ last.fragments = first.fragments := by
  obtain ⟨last, hnone, hfragments, hlast⟩ :=
    exists_last_round hfirst fun _ _ => idle_of_generates hgives hfirst
  exact ⟨outcome_compileAll hgives hfirst, fun _ _ => idle_of_generates hgives hfirst,
    fun limit hlimit => ⟨last, hlast limit hlimit, hnone, hfragments⟩⟩

/-- That a text gives names only can be told from what its directives declare. -/
theorem givesNames_of_collected {document : Document} {before : Catalog}
    (hparse : Document.parse text = .ok document)
    (hcollected : Catalog.collected document schemaName scope = .ok before)
    (hnames : before.GivesNames) : GivesNames schemaName scope text := by
  intro other catalog hother hcatalog
  rw [hparse] at hother
  cases hother
  rw [hcollected] at hcatalog
  cases hcatalog
  exact hnames

/-- A schema that generates documents of every kind: operations, a query by a key, and shared
declarations with the filter of an enum. -/
def orderSchema : String :=
  "enum State \x7b PAID \x7d
type Order @model @key(fields: [\"state\", \"day\"], name: \"by\", queryField: \"ordersBy\") \x7b
  state: State items: [Item] @connection(foreignKey: \"order\") \x7d
type Item @model"

theorem orderSchema_settles : ∃ first,
    (compile "schema.graphql" none orderSchema).outcome = .ok first ∧
      (compileAll "schema.graphql" none orderSchema).outcome = .ok first.fragments ∧
      ∀ limit ≥ 2, ∃ last : Rounds,
        (Rounds.run none 0 limit
            { known := [orderSchema], pending := [("schema.graphql", orderSchema)] }).outcome
            = .ok last ∧
          last.pending = [] ∧ last.fragments = first.fragments := by
  have hchecks : Outcome.Holds (Document.parse orderSchema) fun document =>
      Outcome.Holds (Catalog.collected document "schema.graphql" none) (·.GivesNames) ∧
        Outcome.Holds (compileDocument "schema.graphql" none document).outcome fun _ => True := by
    decide +kernel
  obtain ⟨document, hparse, ⟨before, hcollected, hnames⟩, first, hdocument, -⟩ := hchecks
  have hfirst : (compile "schema.graphql" none orderSchema).outcome = .ok first :=
    (outcome_compile_of_parse hparse).trans hdocument
  obtain ⟨hall, -, hrounds⟩ :=
    compileAll_eq_compile (givesNames_of_collected hparse hcollected hnames) hfirst
  exact ⟨first, hfirst, hall, hrounds⟩

end SchemaLoom
