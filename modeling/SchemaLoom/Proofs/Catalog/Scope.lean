/-
What a catalog reads of its document.

A document is read in three places: its occurrences of directives are looked through, its types
are looked up, and the directives of its sites are stripped.  Nothing else depends on it, and no
directive out of scope is read in any of them.  So a catalog over a document that agrees with its
own within the scope gathers the same entries and emits the same fragments, all but the one that
the published schema starts from.

`Catalog.upon` puts a catalog over another document.  What changes catalogs is shown to commute
with that (`Ignores`), from single directives (`ignores_act`) over phases (`dispatch_upon`) to
`gather_upon`.  The one thing that a phase takes from the document is the list of its
occurrences, and those out of scope play no role in it (`run_filter_inScope`).
-/
import SchemaLoom.Proofs.Catalog.Naming
import SchemaLoom.Proofs.Catalog.Locality
import SchemaLoom.Proofs.Sdl.Scope

namespace SchemaLoom

open Artifact Surface
open Sdl (Site Document Scope)

namespace Report

variable {ε α β : Type}

/-- What follows a report only matters for the value that the report comes to. -/
theorem bind_congr_of_ok {r : Report ε α} {next next' : α → Report ε β}
    (h : ∀ a, r.outcome = .ok a → next a = next' a) : r >>= next = r >>= next' := by
  obtain ⟨outcome, notices⟩ := r
  cases outcome with
  | error fault => rfl
  | ok a =>
    have hnext := h a rfl
    exact congrArg (fun report => (⟨report.outcome, notices ++ report.notices⟩ : Report ε β)) hnext

theorem map_ok (f : α → β) (a : α) (notices : List Notice) :
    f <$> (⟨.ok a, notices⟩ : Report ε α) = ⟨.ok (f a), notices⟩ :=
  congrArg (Report.mk (.ok (f a))) (List.append_nil notices)

theorem map_error (f : α → β) (fault : ε) (notices : List Notice) :
    f <$> (⟨.error fault, notices⟩ : Report ε α) = ⟨.error fault, notices⟩ := rfl

end Report

namespace Catalog

/-- A catalog over another document. -/
def upon (document : Document) (c : Catalog) : Catalog := { c with document }

variable {c : Catalog} {doc : Document}

/-! ### Directives

Acting reads the catalog but for its document, and a directive acts on a catalog with another
document in the same way (`Ignores`).
-/

/-- What `f` does to a catalog does not depend on the document of the catalog. -/
def Ignores (doc : Document) (f : Catalog → Report Fault Catalog) : Prop :=
  ∀ c, f (c.upon doc) = upon doc <$> f c

/-- What does not depend on a catalog may come first. -/
theorem Ignores.after {α : Type} (x : Except Fault α) {next : α → Catalog → Report Fault Catalog}
    (h : ∀ a, Ignores doc (next a)) :
    Ignores doc fun c => (liftM x : Report Fault α) >>= fun a => next a c := by
  intro c
  cases x with
  | error fault => rfl
  | ok a => exact h a c

theorem register_upon (c : Catalog) (t : Table) :
    (c.upon doc).register t = (c.register t).map (upon doc) := by
  have htable : (c.upon doc).table? t.name = c.table? t.name := rfl
  unfold register
  rw [htable]
  split <;> rfl

theorem ignores_registerType (body : Sdl.ObjectType) : Ignores doc (·.registerType body) := by
  intro c
  dsimp only
  unfold registerType
  rw [register_upon]
  cases c.register { definition := body } <;> rfl

theorem ignores_onTable (role : Role) (site : Site) (change : Table → Except Fault Table) :
    Ignores doc (·.onTable role site change) := by
  intro c
  have htable : (c.upon doc).table? site.typeName = c.table? site.typeName := rfl
  dsimp only
  unfold onTable
  rw [htable]
  cases c.table? site.typeName with
  | none => rfl
  | some t =>
    dsimp only
    cases change t <;> rfl

/-- **What a directive does does not depend on the document (`Ignores`).** -/
theorem ignores_act (role : Role) (site : Site) (args : Form.Fields) :
    Ignores doc (·.act role site args) := by
  unfold act
  split
  next body => exact ignores_registerType body
  next => exact ignores_onTable _ _ _
  next body field => exact .after _ fun shape c => rfl
  next d field _ => exact .after _ fun shape => ignores_onTable _ _ _
  next d field => exact .after _ fun binding c => rfl
  next =>
    refine .after _ fun rule => ?_
    cases site with
    | field d field => exact fun c => rfl
    | type d => exact ignores_onTable _ _ _
  next => exact ignores_onTable _ _ _
  next => exact ignores_onTable _ _ _
  next => exact fun c => rfl

theorem step_upon (phase : Phase) (o : Occurrence) (c : Catalog) :
    step phase (c.upon doc) o = upon doc <$> step phase c o := by
  have hscope : (c.upon doc).scope = c.scope := rfl
  unfold step
  rw [hscope]
  cases roleOf? c.scope phase o with
  | none => rfl
  | some role =>
    have hact : (c.upon doc).act role o.1 o.2.entries = upon doc <$> c.act role o.1 o.2.entries :=
      ignores_act role o.1 o.2.entries c
    dsimp only
    rw [hact, map_bind]

/-! ### Phases

Occurrences out of scope play no role, so a phase runs as if the document had only those in scope.
-/

/-- How far a phase came over another document. -/
def Progress.upon (document : Document) (p : Progress) : Progress :=
  { p with catalog := p.catalog.upon document }

theorem Progress.report_upon (p : Progress) :
    (p.upon doc).report = Catalog.upon doc <$> p.report := by
  obtain ⟨catalog, fault, notices⟩ := p
  cases fault with
  | none => exact (Report.map_ok (Catalog.upon doc) catalog notices).symm
  | some fault => rfl

/-- The same occurrences do the same over another document. -/
theorem run_upon (phase : Phase) (os : List Occurrence) (c : Catalog) :
    run phase (c.upon doc) os = (run phase c os).upon doc := by
  induction os generalizing c with
  | nil => rfl
  | cons o os ih =>
    rw [run, run, step_upon]
    rcases step phase c o with ⟨fault | next, notices⟩
    · rw [Report.map_error]
      rfl
    · rw [Report.map_ok]
      dsimp only
      rw [ih next]
      rfl

/-- Occurrences out of scope do nothing. -/
theorem run_filter_inScope (phase : Phase) (os : List Occurrence) (c : Catalog) :
    run phase c (os.filter fun o => o.1.inScope c.scope) = run phase c os := by
  induction os generalizing c with
  | nil => rfl
  | cons o os ih =>
    cases hscope : o.1.inScope c.scope with
    | false =>
      have hidle : step phase c o = ⟨.ok c, []⟩ := by
        have hnone : roleOf? c.scope phase o = none := by
          cases hrole : roleOf? c.scope phase o with
          | none => rfl
          | some role =>
            have hinside := (of_roleOf? hrole).2.2.2
            rw [hscope] at hinside
            cases hinside
        unfold step
        rw [hnone]
        rfl
      rw [List.filter_cons_of_neg (by simp [hscope]), ih c, run, hidle]
      rfl
    | true =>
      rw [List.filter_cons_of_pos (by simp [hscope]), run, run]
      cases houtcome : (step phase c o).outcome with
      | error fault => rfl
      | ok next =>
        have hsame : c.scope = next.scope := (others_of_step houtcome).1.symm
        dsimp only
        rw [hsame, ih next]

/-- The occurrences in scope are those at the sites in scope. -/
theorem filter_occurrences (scope : Scope) (document : Document) :
    (occurrences document).filter (fun o => o.1.inScope scope)
      = (document.sites.filter (·.inScope scope)).flatMap fun site =>
          site.directives.map fun d => (site, d) := by
  unfold occurrences
  induction document.sites with
  | nil => rfl
  | cons site sites ih =>
    rw [List.flatMap_cons, List.filter_append, ih, List.filter_map]
    cases hscope : site.inScope scope with
    | true =>
      rw [List.filter_cons_of_pos (by exact hscope), List.flatMap_cons]
      refine congrArg (· ++ _) (congrArg (List.map _) (List.filter_eq_self.2 fun d _ => hscope))
    | false =>
      have hnone :
          site.directives.filter ((fun o : Occurrence => o.1.inScope scope) ∘ fun d => (site, d))
          = [] := List.filter_eq_nil_iff.2 fun d _ => by simp [hscope]
      rw [List.filter_cons_of_neg (by simp [hscope]), hnone]
      rfl

/-- **A phase comes to the same over a document that agrees within the scope**
(`Document.AgreesIn`). -/
theorem dispatch_upon (h : c.document.AgreesIn c.scope doc) (phase : Phase) :
    (c.upon doc).dispatch phase = (c.dispatch phase).upon doc := by
  have hdocument : (c.upon doc).document = doc := rfl
  unfold dispatch
  rw [run_upon, hdocument, ← run_filter_inScope phase (occurrences doc),
    ← run_filter_inScope phase (occurrences c.document), filter_occurrences, filter_occurrences,
    h.sites_eq]

/-! ### Classifying -/

theorem link_upon (c : Catalog) (t : Table) (r : Relation) :
    (c.upon doc).link t r = (c.link t r).upon doc := by
  have htable : (c.upon doc).table? r.target = c.table? r.target := rfl
  unfold link
  rw [htable]
  cases c.table? r.target <;> rfl

theorem settleMany_upon (c : Catalog) (t : Table) (r : Relation) :
    (c.upon doc).settleMany t r = (c.settleMany t r).upon doc := by
  have htable : ∀ (other : Catalog) (name : String),
      (other.upon doc).table? name = other.table? name := fun _ _ => rfl
  have hput : ∀ (other : Catalog) (t : Table),
      (other.upon doc).putTable t = (other.putTable t).upon doc := fun _ _ => rfl
  unfold settleMany
  rw [htable]
  cases c.table? r.target with
  | none =>
    dsimp only
    rw [htable]
    cases c.table? t.name <;> rfl
  | some target =>
    dsimp only
    rw [hput, htable]
    cases (c.putTable (target.acceptRelation t r).1).table? t.name <;> rfl

/-- Classifying a relation does not depend on the document. -/
theorem classifyAt_upon (c : Catalog) (position : String × Nat) :
    (c.upon doc).classifyAt position
      = ((c.classifyAt position).1.upon doc, (c.classifyAt position).2) := by
  have htable : ∀ (other : Catalog) (name : String),
      (other.upon doc).table? name = other.table? name := fun _ _ => rfl
  have hput : ∀ (other : Catalog) (t : Table),
      (other.upon doc).putTable t = (other.putTable t).upon doc := fun _ _ => rfl
  have helim : ∀ (t? : Option Table) (other : Catalog) (f : Catalog → Table → Catalog),
      (∀ t, f (other.upon doc) t = (f other t).upon doc) →
      t?.elim (other.upon doc) (f (other.upon doc)) = (t?.elim other (f other)).upon doc := by
    intro t? other f hf
    cases t? with
    | none => rfl
    | some t => exact hf t
  have hkind : ∀ t r, (c.upon doc).kindOf t r = c.kindOf t r := fun _ _ => rfl
  unfold classifyAt
  rw [htable]
  cases c.table? position.1 with
  | none => rfl
  | some t =>
    dsimp only
    cases t.relations[position.2]? with
    | none => rfl
    | some r =>
      dsimp only
      rw [hkind, htable, hput, htable,
        helim _ _ (fun other t => other.link t r) fun t => link_upon _ t r]
      cases r.toMany with
      | false => rfl
      | true =>
        rw [if_pos rfl, if_pos rfl, htable,
          helim _ _ (fun other t => other.settleMany t r) fun t => settleMany_upon _ t r]

theorem classifyAll_upon (positions : List (String × Nat)) (c : Catalog) :
    (c.upon doc).classifyAll positions
      = ((c.classifyAll positions).1.upon doc, (c.classifyAll positions).2) := by
  induction positions generalizing c with
  | nil => rfl
  | cons position rest ih =>
    rw [classifyAll, classifyAll, classifyAt_upon]
    dsimp only
    rw [ih]

theorem unboundRules_upon (c : Catalog) : (c.upon doc).unboundRules = c.unboundRules := rfl

/-- **From a document that agrees within the scope the same is gathered.** -/
theorem gather_upon {document : Document} {scope : Scope} (h : document.AgreesIn scope doc)
    (schemaName : String) :
    gather { document := doc, schemaName, scope }
      = upon doc <$> gather { document, schemaName, scope } := by
  have hfirst := dispatch_upon (c := { document, schemaName, scope }) h .register
  unfold gather
  rw [show ({ document := doc, schemaName, scope } : Catalog)
    = ({ document, schemaName, scope } : Catalog).upon doc from rfl, hfirst, Progress.report_upon,
    map_bind, bind_map_left]
  refine Report.bind_congr_of_ok fun registered hregistered => ?_
  obtain ⟨-, hdocument, hscope, -⟩ := (rooted_empty document schemaName scope).run hregistered
  have hsecond := dispatch_upon (c := registered) (by rwa [hdocument, hscope]) .collect
  rw [hsecond, Progress.report_upon, map_bind, bind_map_left]
  refine Report.bind_congr_of_ok fun collected _ => ?_
  unfold classify
  rw [show (collected.upon doc).relationPositions = collected.relationPositions from rfl,
    classifyAll_upon, unboundRules_upon, Report.map_ok]

end Catalog

end SchemaLoom
