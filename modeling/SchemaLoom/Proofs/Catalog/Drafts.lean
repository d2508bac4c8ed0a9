/-
What is drafted into the published schema.

Behind the document itself there are edits, and the generated documents that happen to have the
place of the published schema.  The edits of a table follow its document, so once a table has had
its turn, the only documents to come are those of tables behind it.

If the published schema is known by a name without points, these are the operations of the one
table of that name: queries by key and what is shared have points in theirs.  `Trails` says that
of a fragment, and `exists_drafts` cuts the drafts at the edit that opens the type of a table,
which is the first edit of the type if there are rules.
-/
import SchemaLoom.Proofs.Artifact.Interpretation
import SchemaLoom.Proofs.Catalog.PublishedEdit
import SchemaLoom.Proofs.Surface.Openings

namespace SchemaLoom

open Artifact Surface
open Access (annotations)

namespace Catalog

variable {c : Catalog} {t : Table} {before behind : List Table} {part : TablePart} {f : Fragment}
  {stem : String}

/-! ### Fragments

Among the published texts is that of the operations of a table whose name is that of the schema,
and it may stand behind edits.  So what is addressed to the published schema is followed in order
(`Trails`), with the tables that have been passed.
-/

/-- The document that one part of a table gives rise to declares operations, or a query. -/
theorem exists_of_mem_partTexts (hf : f ∈ c.partTexts t part) :
    (part = .operations ∧ Outcome.Holds (operationDeclarations c t) fun ds =>
        f = .ofText (schemaLocation t.name) (renderDocument ds)) ∨
      ∃ key, part = .query key ∧ Outcome.Holds (queryDeclarations t key) fun ds =>
        f = .ofText (schemaLocation (t.name ++ "." ++ queryName key)) (renderDocument ds) := by
  have htext : ∀ {schema : Except Fault String} {text : String}, text ∈ schema.toOption.toList →
      schema = .ok text := by
    intro schema text hmem
    cases schema with
    | error fault => cases hmem
    | ok other => rw [List.mem_singleton.1 hmem]
  cases part with
  | operations =>
    obtain ⟨text, hmem, rfl⟩ := List.mem_map.1 hf
    obtain ⟨ds, hdeclarations, rfl⟩ := Outcome.of_map_eq_ok (htext hmem)
    exact Or.inl ⟨rfl, ds, hdeclarations, rfl⟩
  | query key =>
    obtain ⟨text, hmem, rfl⟩ := List.mem_map.1 hf
    obtain ⟨ds, hdeclarations, rfl⟩ := Outcome.of_map_eq_ok (htext hmem)
    exact Or.inr ⟨key, rfl, ds, hdeclarations, rfl⟩
  | storage => cases hf
  | relation r => cases hf

/-- The fragment edits the published schema, or puts there what the operations of one of `tables`
come to, if the table is named `stem`. -/
inductive Trails (c : Catalog) (tables : List Table) (stem : String) : Fragment → Prop where
  | edit {e : Sdl.Edit} (he : e ∈ c.publishedEdits) :
      Trails c tables stem (.ofEdit c.publishedLocation e)
  | operations {t : Table} {ds : List Declaration} (htable : t ∈ tables) (hname : t.name = stem)
    (hdeclarations : operationDeclarations c t = .ok ds) :
    Trails c tables stem (.ofText c.publishedLocation (renderDocument ds))

theorem Trails.mono {tables more : List Table} (h : c.Trails tables stem f)
    (hmore : tables ⊆ more) :
    c.Trails more stem f := by
  cases h with
  | edit he => exact .edit he
  | operations htable hname hdeclarations => exact .operations (hmore htable) hname hdeclarations

theorem trails_ofEdit {edits : List Sdl.Edit} (hedits : ∀ e ∈ edits, e ∈ c.publishedEdits)
    (hf : f ∈ edits.map (Fragment.ofEdit c.publishedLocation)) : c.Trails [] stem f := by
  obtain ⟨e, he, rfl⟩ := List.mem_map.1 hf
  exact .edit (hedits e he)

theorem mem_publishedEdits_of_part (ht : t ∈ c.tables) (hpart : part ∈ t.parts) :
    ∀ e ∈ partEdits t part, e ∈ c.publishedEdits := fun _ he =>
  List.mem_append_left _ (List.mem_append_left _
    (List.mem_flatMap.2 ⟨t, ht, List.mem_flatMap.2 ⟨part, hpart, he⟩⟩))

theorem mem_publishedEdits_of_binding :
    ∀ e ∈ c.bindings.flatMap (bindingEdits c), e ∈ c.publishedEdits := fun _ he =>
  List.mem_append_left _ (List.mem_append_right _ he)

theorem mem_publishedEdits_of_strip : ∀ e ∈ stripEdits c, e ∈ c.publishedEdits := fun _ he =>
  List.mem_append_right _ he

/-- If there are rules, the first edit of a type opens it to the callers that they admit. -/
theorem exists_ownEdits (h : t.rules ≠ []) : ∃ tenant,
    ownEdits t = .addDirectives t.name none (annotations (Table.providersOf t.rules)) ::
      tenant := by
  have hsome : annotations (Table.providersOf t.rules) ≠ [] := by
    obtain ⟨r, hr⟩ := List.exists_mem_of_ne_nil _ h
    exact List.ne_nil_of_mem (Access.mem_annotations.2 ⟨r, hr, rfl⟩)
  unfold ownEdits
  dsimp only
  rw [if_neg (by simpa using hsome)]
  exact ⟨_, List.singleton_append⟩

/-- The operations of a table come in front of what else has a document. -/
theorem exists_parts (t : Table) : ∃ others : List TablePart,
    t.parts = .storage :: .operations :: others ∧ .operations ∉ others :=
  ⟨t.queryKeys.map .query ++ (t.relations.filter (t.isResolvable ·)).map .relation,
    by simp [Table.parts], by simp⟩

section Place

variable (hplace : c.publishedLocation = schemaLocation stem) (hplain : '.' ∉ stem.toList)

include hplace hplain

/-- Of one part of a table there are edits, and of its operations their document if it has the name
of the published schema. -/
theorem trails_of_mem_partDrafts (ht : t ∈ c.tables) (hpart : part ∈ t.parts)
    (hf : f ∈ c.partDrafts t part) :
    c.Trails [] stem f ∨ part = .operations ∧ c.Trails [t] stem f := by
  rcases List.mem_append.1 hf with htext | hedit
  · obtain ⟨hmem, hhere⟩ := location_of_mem_addressedTo htext
    rw [hplace] at hhere
    rcases exists_of_mem_partTexts hmem with ⟨rfl, ds, hdeclarations, rfl⟩ | ⟨key, -, ds, -, rfl⟩
    · refine Or.inr ⟨rfl, ?_⟩
      rw [← hhere] at hplace
      have htrails := Trails.operations (c := c) (List.mem_singleton_self t)
        (schemaLocation_inj.1 hhere) hdeclarations
      rwa [hplace] at htrails
    · exact absurd (schemaLocation_inj.1 hhere) (not_plain_stem hplain)
  · exact Or.inl (trails_ofEdit (mem_publishedEdits_of_part ht hpart) hedit)

theorem trails_of_mem_tables {tables : List Table} (htables : tables ⊆ c.tables)
    (hf : f ∈ tables.flatMap fun t => t.parts.flatMap (c.partDrafts t)) :
    c.Trails tables stem f := by
  obtain ⟨t, ht, hparts⟩ := List.mem_flatMap.1 hf
  obtain ⟨part, hpart, hone⟩ := List.mem_flatMap.1 hparts
  rcases trails_of_mem_partDrafts hplace hplain (htables ht) hpart hone with hedit | ⟨-, hown⟩
  · exact hedit.mono (List.nil_subset _)
  · exact hown.mono (by simpa using ht)

variable (hother : stem ≠ "root")

include hother

omit hplain in
theorem addressedTo_sharedTexts : addressedTo c.publishedLocation c.sharedTexts = [] := by
  refine addressedTo_eq_nil fun f hf hhere => ?_
  unfold sharedTexts at hf
  split at hf
  · cases hf
  · obtain ⟨text, -, rfl⟩ := List.mem_map.1 hf
    have hshared : sharedLocation = schemaLocation "root" := by decide
    rw [hplace] at hhere
    exact hother (schemaLocation_inj.1 (hshared.symm.trans hhere)).symm

/-- **Behind the document itself there are edits, and the operations of a table of its name**
(`Catalog.Trails`). -/
theorem trails_of_mem_drafts (hf : f ∈ c.drafts) : c.Trails c.tables stem f := by
  rw [drafts, addressedTo_sharedTexts hplace hother, List.append_nil] at hf
  rcases List.mem_append.1 hf with hf | hstrip
  · rcases List.mem_append.1 hf with htables | hbinding
    · exact trails_of_mem_tables hplace hplain (List.Subset.refl _) htables
    · exact (trails_ofEdit mem_publishedEdits_of_binding hbinding).mono (List.nil_subset _)
  · exact (trails_ofEdit mem_publishedEdits_of_strip hstrip).mono (List.nil_subset _)

/-- **Behind the edit that opens a type there are edits, and the operations of tables behind that of
the type.** -/
theorem exists_drafts (htables : c.tables = before ++ t :: behind) (hsome : t.rules ≠ []) :
    ∃ front rest, c.drafts = front ++ .ofEdit c.publishedLocation
        (.addDirectives t.name none (annotations (Table.providersOf t.rules))) :: rest ∧
      ∀ f ∈ rest, c.Trails behind stem f := by
  have ht : t ∈ c.tables := by simp [htables]
  have hbehind : behind ⊆ c.tables := by simp [htables]
  obtain ⟨tenant, hown⟩ := exists_ownEdits hsome
  obtain ⟨others, hparts, hothers⟩ := exists_parts t
  have hdrafts := addressedTo_sharedTexts hplace hother
  refine ⟨(before.flatMap fun t => t.parts.flatMap (c.partDrafts t))
      ++ (c.partDrafts t .storage ++ addressedTo c.publishedLocation (c.partTexts t .operations)),
    tenant.map (Fragment.ofEdit c.publishedLocation) ++ others.flatMap (c.partDrafts t)
      ++ (behind.flatMap fun t => t.parts.flatMap (c.partDrafts t))
      ++ (c.bindings.flatMap (bindingEdits c)).map (Fragment.ofEdit c.publishedLocation)
      ++ stripFragments c, ?_, fun f hf => ?_⟩
  -- The edit that opens the type is the first behind the operations of its table.
  · have hhere :
        c.partDrafts t .operations = addressedTo c.publishedLocation (c.partTexts t .operations)
        ++ .ofEdit c.publishedLocation (.addDirectives t.name none
          (annotations (Table.providersOf t.rules))) ::
            tenant.map (Fragment.ofEdit c.publishedLocation) := by
      rw [partDrafts, partEdits, hown, List.map_cons]
    rw [drafts, hdrafts, htables, List.flatMap_append, List.flatMap_cons, hparts, List.flatMap_cons,
      List.flatMap_cons, hhere]
    simp only [List.append_assoc, List.cons_append, List.append_nil]
  · simp only [List.mem_append] at hf
    rcases hf with (((htenant | hlater) | htables) | hbinding) | hstrip
    · have howned : .operations ∈ t.parts := by simp [hparts]
      refine (trails_ofEdit (fun e he => ?_) htenant).mono (List.nil_subset _)
      refine mem_publishedEdits_of_part ht howned e ?_
      rw [partEdits, hown]
      exact List.mem_cons_of_mem _ he
    · obtain ⟨part, hpart, hone⟩ := List.mem_flatMap.1 hlater
      have howned : part ∈ t.parts := by simp [hparts, hpart]
      rcases trails_of_mem_partDrafts hplace hplain ht howned hone with hedit | ⟨rfl, -⟩
      · exact hedit.mono (List.nil_subset _)
      · exact absurd hpart hothers
    · exact trails_of_mem_tables hplace hplain hbehind htables
    · exact (trails_ofEdit mem_publishedEdits_of_binding hbinding).mono (List.nil_subset _)
    · exact (trails_ofEdit mem_publishedEdits_of_strip hstrip).mono (List.nil_subset _)

end Place

end Catalog

end SchemaLoom
