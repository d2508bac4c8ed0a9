/-
What rounds of compiling visit.

The first round compiles the text itself.  All later ones compile documents that follow from it
(`Follows`): documents that it generated, or that were generated by compiling those.  The
fragments of all rounds are those of the first compilation, followed by those of the later ones
(`of_compileAll`).

The state of the rounds holds texts that are known, documents that are pending and fragments.
The induction is on the number of rounds that may follow, within each round on the documents that
are pending; a property of the documents that follow is carried along, and what one compilation
generates follows from it again.
-/
import SchemaLoom.Compile
import SchemaLoom.Outcome

namespace SchemaLoom

open Artifact

/-- A document, by file name, that follows from a compilation: it was generated, or it was generated
by compiling one that was. -/
inductive Follows (scope : Sdl.Scope) (first : Compilation) : String × String → Prop where
  | generated {f : Fragment} {d : String × String} (hmem : f ∈ first.fragments)
    (hgenerated : Rounds.generated? first.catalog.publishedLocation f = some d) :
    Follows scope first d
  | further {d d' : String × String} {next : Compilation} {f : Fragment}
    (hfollows : Follows scope first d) (hnext : (compile d.1 scope d.2).outcome = .ok next)
    (hmem : f ∈ next.fragments)
    (hgenerated : Rounds.generated? next.catalog.publishedLocation f = some d') :
    Follows scope first d'

namespace Rounds

variable {scope : Sdl.Scope}

/-! ### Single steps -/

theorem fragments_look (published : String) (r : Rounds) (f : Fragment) :
    (look published r f).fragments = r.fragments := by
  unfold look
  split
  · rfl
  · split <;> rfl

theorem mem_pending_look (published : String) (r : Rounds) (f : Fragment) {d : String × String}
    (h : d ∈ (look published r f).pending) : d ∈ r.pending ∨ generated? published f = some d := by
  unfold look at h
  cases hgenerated : generated? published f with
  | none =>
    rw [hgenerated] at h
    exact Or.inl h
  | some found =>
    obtain ⟨name, text⟩ := found
    rw [hgenerated] at h
    dsimp only at h
    split at h
    · exact Or.inl h
    · rcases List.mem_append.1 h with hold | hnew
      · exact Or.inl hold
      · have hsame : d = (name, text) := List.mem_singleton.1 hnew
        subst hsame
        exact Or.inr rfl

/-- Looking at fragments takes up documents that they provide, and nothing else. -/
theorem look_all (published : String) (fs : List Fragment) (r : Rounds) :
    (fs.foldl (look published) r).fragments = r.fragments ∧
      ∀ d ∈ (fs.foldl (look published) r).pending,
        d ∈ r.pending ∨ ∃ f ∈ fs, generated? published f = some d := by
  induction fs generalizing r with
  | nil => exact ⟨rfl, fun d hd => Or.inl hd⟩
  | cons f fs ih =>
    rw [List.foldl_cons]
    obtain ⟨hfragments, hpending⟩ := ih (look published r f)
    refine ⟨hfragments.trans (fragments_look published r f), ?_⟩
    intro d hd
    rcases hpending d hd with hlooked | ⟨other, hother, hgenerated⟩
    · rcases mem_pending_look published r f hlooked with hold | hhere
      · exact Or.inl hold
      · exact Or.inr ⟨f, List.mem_cons_self, hhere⟩
    · exact Or.inr ⟨other, List.mem_cons_of_mem f hother, hgenerated⟩

/-- Compiling one document adds its fragments and takes up what they provide. -/
theorem of_compileOne {r r' : Rounds} {d : String × String}
    (h : (compileOne scope r d).outcome = .ok r') :
    ∃ c, (compile d.1 scope d.2).outcome = .ok c ∧ r'.fragments = r.fragments ++ c.fragments ∧
      ∀ d' ∈ r'.pending, d' ∈ r.pending ∨
        ∃ f ∈ c.fragments, generated? c.catalog.publishedLocation f = some d' := by
  unfold compileOne at h
  rw [Report.outcome_bind] at h
  obtain ⟨c, hcompile, h⟩ := Outcome.of_bind_eq_ok h
  cases h
  obtain ⟨hfragments, hpending⟩ := look_all c.catalog.publishedLocation c.fragments
    { r with fragments := r.fragments ++ c.fragments }
  exact ⟨c, hcompile, hfragments, hpending⟩

/-! ### Whole runs

The fragments of a run are those of its compilations, one after the other, and each compilation is
of the source or of a document that another one generated.
-/

/-- What all rounds from some state on add: the fragments of compilations of documents of a kind
that is closed under what they generate. -/
theorem of_foldlM {P : String × String → Prop}
    (hclosed : ∀ d c f d', P d → (compile d.1 scope d.2).outcome = .ok c → f ∈ c.fragments →
      generated? c.catalog.publishedLocation f = some d' → P d') {ds : List (String × String)}
    (hds : ∀ d ∈ ds, P d) {r r' : Rounds} (hpending : ∀ d ∈ r.pending, P d)
    (h : (ds.foldlM (compileOne scope) r).outcome = .ok r') :
    ∃ cs : List Compilation, r'.fragments = r.fragments ++ cs.flatMap (·.fragments) ∧
      (∀ c ∈ cs, ∃ d, P d ∧ (compile d.1 scope d.2).outcome = .ok c) ∧ ∀ d ∈ r'.pending, P d := by
  induction ds generalizing r with
  | nil =>
    cases h
    refine ⟨[], by simp, ?_, hpending⟩
    intro c hc
    cases hc
  | cons d ds ih =>
    rw [List.foldlM_cons, Report.outcome_bind] at h
    obtain ⟨next, hone, h⟩ := Outcome.of_bind_eq_ok h
    obtain ⟨c, hcompile, hfragments, hnext⟩ := of_compileOne hone
    have hd := hds d List.mem_cons_self
    obtain ⟨cs, hrest, heach, hlast⟩ := ih (fun d hd => hds d (List.mem_cons_of_mem _ hd))
      (fun d' hd' => by
        rcases hnext d' hd' with hold | ⟨f, hf, hgenerated⟩
        · exact hpending d' hold
        · exact hclosed d c f d' hd hcompile hf hgenerated) h
    refine ⟨c :: cs, by rw [hrest, hfragments]; simp, ?_, hlast⟩
    intro other hother
    rcases List.mem_cons.1 hother with rfl | hother
    · exact ⟨d, hd, hcompile⟩
    · exact heach other hother

theorem of_run {P : String × String → Prop}
    (hclosed : ∀ d c f d', P d → (compile d.1 scope d.2).outcome = .ok c → f ∈ c.fragments →
      generated? c.catalog.publishedLocation f = some d' → P d') {done more : Nat} {r r' : Rounds}
    (hpending : ∀ d ∈ r.pending, P d) (h : (run scope done more r).outcome = .ok r') :
    ∃ cs : List Compilation, r'.fragments = r.fragments ++ cs.flatMap (·.fragments) ∧
      ∀ c ∈ cs, ∃ d, P d ∧ (compile d.1 scope d.2).outcome = .ok c := by
  induction more generalizing done r with
  | zero =>
    unfold run at h
    split at h
    · cases h
      exact ⟨[], by simp, fun c hc => nomatch hc⟩
    · cases h
  | succ more ih =>
    unfold run at h
    split at h
    · cases h
      exact ⟨[], by simp, fun c hc => nomatch hc⟩
    · rw [Report.outcome_bind] at h
      obtain ⟨next, hnext, h⟩ := Outcome.of_bind_eq_ok h
      obtain ⟨cs, hfragments, heach, hlast⟩ :=
        of_foldlM hclosed hpending (fun d hd => by cases hd) hnext
      obtain ⟨more, hmore, heachmore⟩ := ih hlast h
      refine ⟨cs ++ more, by rw [hmore, hfragments]; simp, ?_⟩
      intro c hc
      rcases List.mem_append.1 hc with hc | hc
      · exact heach c hc
      · exact heachmore c hc

end Rounds

/-- **All fragments are those of the text, followed by those of documents that follow from it.** -/
theorem of_compileAll {schemaName text : String} {scope : Sdl.Scope} {fragments : List Fragment}
    (h : (compileAll schemaName scope text).outcome = .ok fragments) :
    ∃ first, (compile schemaName scope text).outcome = .ok first ∧
      ∃ cs : List Compilation, fragments = first.fragments ++ cs.flatMap (·.fragments) ∧
        ∀ c ∈ cs, ∃ d, Follows scope first d ∧ (compile d.1 scope d.2).outcome = .ok c := by
  unfold compileAll at h
  rw [Report.outcome_bind] at h
  obtain ⟨last, hrun, h⟩ := Outcome.of_bind_eq_ok h
  cases h
  rw [Rounds.limit, Rounds.run] at hrun
  simp only [List.isEmpty_cons, Bool.false_eq_true, ↓reduceIte, Rounds.next, List.foldlM_cons,
    List.foldlM_nil, bind_pure] at hrun
  rw [Report.outcome_bind] at hrun
  obtain ⟨next, hfirst, hrun⟩ := Outcome.of_bind_eq_ok hrun
  obtain ⟨first, hcompile, hfragments, hpending⟩ := Rounds.of_compileOne hfirst
  refine ⟨first, hcompile, ?_⟩
  obtain ⟨cs, hall, heach⟩ := Rounds.of_run (P := Follows scope first)
    (fun d c f d' hd hc hf hgenerated => .further hd hc hf hgenerated)
    (fun d hd => by
      rcases hpending d hd with hnone | ⟨f, hf, hgenerated⟩
      · cases hnone
      · exact .generated hf hgenerated) hrun
  exact ⟨cs, by rw [hall, hfragments]; simp, heach⟩

end SchemaLoom
