/-
The published schema among all fragments.

What documents that were generated give rise to is placed elsewhere: their compilations publish
under their own file names.  So all that is addressed to the published schema comes from the
compilation of the text itself (`addressedTo_compileAll`).

That holds as long as no generated document has the file name of the published schema
(`SparesPublished`).  A location counts by its last component, so a folder does not keep two
documents of one file name apart.

The induction is on the rounds: whatever has been taken up follows from the first compilation
(`Follows`), and what follows from it is known by the file name of a generated document.
-/
import SchemaLoom.Proofs.Artifact.Location
import SchemaLoom.Proofs.Catalog.Emission
import SchemaLoom.Proofs.Catalog.Gathering
import SchemaLoom.Proofs.Compile.Rounds

namespace SchemaLoom

open Artifact Surface

/-! ### Locations of fragments -/

namespace Catalog

variable {c : Catalog}

theorem Generates.mem_documentLocations {location : String} {ds : List Declaration}
    (h : c.Generates location ds) : location ∈ c.documentLocations := by
  unfold documentLocations
  cases h with
  | @operations t ds htable hdeclarations =>
    refine List.mem_append_left _ (List.mem_flatMap.2 ⟨t, htable, List.mem_flatMap.2
      ⟨.operations, by simp [Table.parts], List.mem_singleton_self _⟩⟩)
  | @query t key ds htable hkey hdeclarations =>
    refine List.mem_append_left _ (List.mem_flatMap.2 ⟨t, htable, List.mem_flatMap.2
      ⟨.query key, by simp [Table.parts, hkey], List.mem_singleton_self _⟩⟩)
  | shared hsome hdeclarations =>
    refine List.mem_append_right _ ?_
    rw [if_neg (by simpa using hsome)]
    exact List.mem_singleton_self _

/-- A fragment is about the published schema, or a generated document, or it is placed aside. -/
theorem Emits.kind {f : Fragment} (h : c.Emits f) :
    f = c.seed ∨ (∃ e ∈ c.publishedEdits, f = .ofEdit c.publishedLocation e) ∨
      (∃ ds, c.Generates f.location ds ∧ f = .ofText f.location (renderDocument ds)) ∨
        IsAside f := by
  cases h with
  | seed => exact Or.inl rfl
  | edit he => exact Or.inr (Or.inl ⟨_, he, rfl⟩)
  | document hdocument => exact Or.inr (Or.inr (Or.inl ⟨_, hdocument, rfl⟩))
  | template _ _ =>
    exact Or.inr (Or.inr (Or.inr (Or.inr (head_append (head_append (head_append (head_append
      (by decide) _) _) _) _))))
  | step _ _ _ =>
    exact Or.inr (Or.inr (Or.inr (Or.inr (head_append (head_append (head_append (head_append
      (by decide) _) _) _) _))))
  | table _ _ => exact Or.inr (Or.inr (Or.inr (Or.inl (head_append (head_append (by decide) _) _))))
  | tableEdit _ =>
    exact Or.inr (Or.inr (Or.inr (Or.inl (head_append (head_append (by decide) _) _))))
  | bindings _ =>
    exact Or.inr (Or.inr (Or.inr (Or.inl (head_append (head_append (by decide) _) _))))
  | steps _ => exact Or.inr (Or.inr (Or.inr (Or.inl (head_append (head_append (by decide) _) _))))
  | binding _ => exact Or.inr (Or.inr (Or.inr aside_binding))
  | queryBinding _ _ => exact Or.inr (Or.inr (Or.inr aside_binding))

theorem Emits.location {f : Fragment} (h : c.Emits f) :
    f.location = c.publishedLocation ∨ f.location ∈ c.documentLocations ∨ IsAside f := by
  rcases h.kind with rfl | ⟨e, -, rfl⟩ | ⟨ds, hdocument, -⟩ | haside
  · exact Or.inl rfl
  · exact Or.inl rfl
  · exact Or.inr (Or.inl hdocument.mem_documentLocations)
  · exact Or.inr (Or.inr haside)

/-- **What a compilation has compiled in turn is a document that it generates.** -/
theorem Emits.generated {f : Fragment} (h : c.Emits f) {d : String × String}
    (hgenerated : Rounds.generated? c.publishedLocation f = some d) :
    ∃ location ds, c.Generates location ds ∧ location ≠ c.publishedLocation ∧
      d = (fileName location, renderDocument ds) := by
  unfold Rounds.generated? at hgenerated
  split at hgenerated
  next text hmedium hpatch hpayload =>
    split at hgenerated
    · cases hgenerated
    next hother =>
      cases hgenerated
      cases h with
      | seed => exact absurd rfl hother
      | edit _ => cases hpatch
      | document hdocument =>
        cases hpayload
        exact ⟨_, _, hdocument, hother, rfl⟩
      | template _ _ => exact absurd (hmedium.symm.trans (medium_template _)) (by decide)
      | step _ _ _ => exact absurd (hmedium.symm.trans (medium_template _)) (by decide)
      | table _ htree =>
        obtain ⟨attributes, -, htree⟩ := Outcome.of_bind_eq_ok htree
        cases htree
        cases hpayload
      | tableEdit _ => cases hpatch
      | bindings _ => cases hpayload
      | steps _ => cases hpayload
      | binding _ => cases hpayload
      | queryBinding _ _ => cases hpayload
  · cases hgenerated

end Catalog

/-! ### The published schema -/

/-- No document that the compilation `c` generates has the file name `schemaName`. -/
def Compilation.Spares (schemaName : String) (c : Compilation) : Prop :=
  ∀ location ∈ c.catalog.documentLocations,
    location ≠ "schema/" ++ schemaName ∧ fileName location ≠ schemaName

instance (schemaName : String) (c : Compilation) : Decidable (c.Spares schemaName) :=
  inferInstanceAs (Decidable (∀ location ∈ c.catalog.documentLocations,
    location ≠ "schema/" ++ schemaName ∧ fileName location ≠ schemaName))

/-- Neither the compilation `first` of a text nor those of documents that follow from it generate a
document with the file name of the published schema. -/
def SparesPublished (schemaName : String) (scope : Sdl.Scope) (first : Compilation) : Prop :=
  first.Spares schemaName ∧
    ∀ d c, Follows scope first d → (compile d.1 scope d.2).outcome = .ok c → c.Spares schemaName

variable {schemaName text : String} {scope : Sdl.Scope} {first : Compilation}

/-- Nothing follows from a compilation that generates no document. -/
theorem sparesPublished_of_none (hspares : first.Spares schemaName)
    (hnone : ∀ f ∈ first.fragments,
      Rounds.generated? first.catalog.publishedLocation f = none) :
    SparesPublished schemaName scope first := by
  have hend : ∀ d, ¬ Follows scope first d := by
    intro d hfollows
    induction hfollows with
    | generated hmem hgenerated => exact absurd ((hnone _ hmem).symm.trans hgenerated) nofun
    | further _ _ _ _ ih => exact ih
  exact ⟨hspares, fun d c hfollows => absurd hfollows (hend d)⟩

/-- What is known of the catalog and the fragments of a compilation. -/
theorem Compilation.of_compile {c : Compilation}
    (h : (compile schemaName scope text).outcome = .ok c) :
    c.catalog.Rooted ∧ c.catalog.schemaName = schemaName ∧
      c.catalog.emit.outcome = .ok c.fragments := by
  obtain ⟨document, -, hcompile⟩ := SchemaLoom.of_compile h
  obtain ⟨hgather, hemit⟩ := of_compileDocument hcompile
  obtain ⟨hrooted, -, -, hname⟩ := Catalog.rooted_of_gather hgather
  exact ⟨hrooted, hname, hemit⟩

theorem Compilation.publishedLocation_eq {c : Compilation}
    (h : (compile schemaName scope text).outcome = .ok c) :
    c.catalog.publishedLocation = "schema/" ++ schemaName := by
  rw [Catalog.publishedLocation, (Compilation.of_compile h).2.1]

/-- A document that follows from a compilation is known by the file name of a generated one. -/
theorem Follows.fileName_ne (hfirst : (compile schemaName scope text).outcome = .ok first)
    (hspares : SparesPublished schemaName scope first) {d : String × String}
    (h : Follows scope first d) : d.1 ≠ schemaName := by
  cases h with
  | generated hmem hgenerated =>
    obtain ⟨-, -, hemit⟩ := Compilation.of_compile hfirst
    obtain ⟨location, ds, hdocument, -, rfl⟩ :=
      (Catalog.emits_of_emit hemit _ hmem).generated hgenerated
    exact (hspares.1 location hdocument.mem_documentLocations).2
  | @further before _ next f hbefore hnext hmem hgenerated =>
    obtain ⟨-, -, hemit⟩ := Compilation.of_compile hnext
    obtain ⟨location, ds, hdocument, -, rfl⟩ :=
      (Catalog.emits_of_emit hemit _ hmem).generated hgenerated
    exact (hspares.2 before next hbefore hnext location hdocument.mem_documentLocations).2

/-- **All that is addressed to the published schema comes from the text itself.** -/
theorem addressedTo_compileAll {fragments : List Fragment}
    (h : (compileAll schemaName scope text).outcome = .ok fragments)
    (hfirst : (compile schemaName scope text).outcome = .ok first)
    (hspares : SparesPublished schemaName scope first) :
    addressedTo ("schema/" ++ schemaName) fragments
      = addressedTo ("schema/" ++ schemaName) first.fragments := by
  obtain ⟨first', hfirst', cs, rfl, heach⟩ := of_compileAll h
  rw [hfirst] at hfirst'
  cases hfirst'
  have hnone : addressedTo ("schema/" ++ schemaName) (cs.flatMap (·.fragments)) = [] := by
    rw [addressedTo_flatMap, List.flatMap_eq_nil_iff]
    intro c hc
    obtain ⟨d, hfollows, hcompile⟩ := heach c hc
    obtain ⟨-, -, hemit⟩ := Compilation.of_compile hcompile
    refine addressedTo_eq_nil fun f hf hhere => ?_
    rcases (Catalog.emits_of_emit hemit f hf).location with hpublished | hdocument | haside
    · rw [hhere, Compilation.publishedLocation_eq hcompile] at hpublished
      exact hfollows.fileName_ne hfirst hspares ((String.append_right_inj _).1 hpublished).symm
    · exact (hspares.2 d c hfollows hcompile f.location hdocument).1 hhere
    · exact haside.ne_schema schemaName hhere
  rw [addressedTo_append, hnone, List.append_nil]

end SchemaLoom
