/-
Putting files together without reading texts that are known.

What was read is read back from what it is printed as, and a generated document is read as the
declarations that it was printed from.  So texts that are known to be read as some documents need
not be read again (`documentKnown_eq`).

Where nothing was built before, texts and generated documents can always be put together.  What
is left are structured texts, and the edits of the published schema; `Compilation.Joins` asks for
those and no more, in a form that can be evaluated.  It gives all files of a build
(`Compilation.Joins.exists_files`).

The point is to run concrete schemas through a whole build.  Reading the text of a document is
what such an evaluation would spend most of its time on.
-/
import SchemaLoom.Proofs.Compile.RootTypes
import SchemaLoom.Proofs.Compile.SchemaText

namespace SchemaLoom

open Artifact Surface Workspace
open Sdl (Document Scope)

/-- A text that is read as a document. -/
structure KnownText where
  text : String
  document : Document

/-- The text of declarations. -/
def KnownText.ofDeclarations (ds : List Declaration) : KnownText :=
  ⟨renderDocument ds, ⟨ds.map (·.toDefinition)⟩⟩

section Known

variable (known : List KnownText) (location : String)

/-- What a payload is read as, if it is a known text. -/
def knownDocument? : Payload → Option Document
  | .tree (.text text) => (known.find? fun k => k.text = text).map (·.document)
  | _ => none

/-- A document after one fragment, where known texts are not read. -/
def stepKnown (doc : Document) (f : Fragment) : Except Fault Document :=
  match f.patch, knownDocument? known f.payload with
  | none, some content => .ok (doc.append content.definitions)
  | _, _ => stepDocument location doc f

/-- The schema document that fragments make of nothing. -/
def documentKnown (fs : List Fragment) : Except Fault Document :=
  fs.foldlM (stepKnown known location) .empty

variable {known location} {fs : List Fragment}
  (hknown : ∀ k ∈ known, Document.parse k.text = .ok k.document)

include hknown

theorem definitions_of_knownDocument? {payload : Payload} {content : Document}
    (h : knownDocument? known payload = some content) :
    payload.definitions location = .ok content.definitions := by
  unfold knownDocument? at h
  split at h
  next text =>
    obtain ⟨k, hfound, rfl⟩ := Option.map_eq_some_iff.1 h
    have htext : k.text = text := by simpa using List.find?_some hfound
    have hparse := hknown k (List.mem_of_find?_eq_some hfound)
    rw [htext] at hparse
    simp only [Payload.definitions, parseSchema, hparse]
    rfl
  · cases h

theorem stepKnown_eq : stepKnown known location = stepDocument location := by
  funext doc f
  unfold stepKnown
  split
  next content hplain hcontent =>
    unfold stepDocument
    rw [hplain, definitions_of_knownDocument? hknown hcontent]
    rfl
  · rfl

theorem documentKnown_eq : documentKnown known location fs = assembleDocument location none fs := by
  rw [documentKnown, stepKnown_eq hknown]
  rfl

end Known

/-! ### Catalogs

The documents that every table has, and the one that all share, are put together as
`Catalog.common`.
-/

/-- The declarations of the operations of a catalog and those that they share, by document. -/
def Catalog.common (c : Catalog) : Except Fault (List (List Declaration)) := do
  let operations ← c.tables.mapM (operationDeclarations c)
  return (← sharedDeclarations c) :: operations

theorem Catalog.of_common {c : Catalog} {dss : List (List Declaration)} (h : c.common = .ok dss) :
    ∃ shared operations, dss = shared :: operations ∧ sharedDeclarations c = .ok shared ∧
      c.tables.mapM (operationDeclarations c) = .ok operations := by
  obtain ⟨operations, hoperations, h⟩ := Outcome.of_bind_eq_ok h
  obtain ⟨shared, hshared, h⟩ := Outcome.of_bind_eq_ok h
  cases h
  exact ⟨shared, operations, rfl, hshared, hoperations⟩

theorem Catalog.generates_of_common {c : Catalog} {dss : List (List Declaration)}
    (h : c.common = .ok dss) (hsome : c.tables ≠ []) {ds : List Declaration} (hds : ds ∈ dss) :
    ∃ location, c.Generates location ds := by
  obtain ⟨shared, operations, rfl, hshared, hoperations⟩ := of_common h
  rcases List.mem_cons.1 hds with rfl | hown
  · exact ⟨_, .shared hsome hshared⟩
  · obtain ⟨t, ht, hdeclarations⟩ := Outcome.exists_of_mem_mapM hoperations hown
    exact ⟨_, .operations ht hdeclarations⟩

/-- Nothing comes of what `c` generates: the operations and what they share are made of names, and
the queries by keys are read and compile to nothing. -/
def Catalog.IsIdle (c : Catalog) (scope : Scope) : Prop :=
  Outcome.Holds c.common (fun dss => ∀ ds ∈ dss, ∀ d ∈ ds, d.IsNamed) ∧
    ∀ t ∈ c.tables, ∀ key ∈ t.queryKeys, Outcome.Holds (queryDeclarations t key) fun ds =>
      Outcome.Holds (compile (fileName (schemaLocation (t.name ++ "." ++ queryName key))) scope
        (renderDocument ds)).outcome fun own => own.fragments.isEmpty = true

instance (c : Catalog) (scope : Scope) : Decidable (c.IsIdle scope) := by
  unfold Catalog.IsIdle
  infer_instance

theorem Catalog.IsIdle.of_generates {c : Catalog} {scope : Scope} (h : c.IsIdle scope)
    {location : String} {ds : List Declaration} (hgenerates : c.Generates location ds) :
    Rounds.Idle scope (fileName location, renderDocument ds) := by
  obtain ⟨⟨dss, hcommon, hnamed⟩, hqueries⟩ := h
  obtain ⟨shared, operations, rfl, hshared, hoperations⟩ := of_common hcommon
  cases hgenerates with
  | operations ht hdeclarations =>
    obtain ⟨own, hmem, hown⟩ := Outcome.exists_result_of_mem hoperations ht
    cases hdeclarations.symm.trans hown
    exact compile_declarations (hnamed ds (List.mem_cons_of_mem _ hmem)) _ scope
  | query ht hkey hdeclarations =>
    obtain ⟨own, hown, compiled, hcompiled, hnone⟩ := hqueries _ ht _ hkey
    cases hdeclarations.symm.trans hown
    exact ⟨compiled, hcompiled, List.isEmpty_iff.1 hnone⟩
  | shared _ hdeclarations =>
    cases hdeclarations.symm.trans hshared
    exact compile_declarations (hnamed ds List.mem_cons_self) _ scope

/-- The document of a catalog, and those of declarations. -/
def Catalog.knownTexts (c : Catalog) (dss : List (List Declaration)) : List KnownText :=
  ⟨c.document.render, c.document⟩ :: dss.map .ofDeclarations

/-! ### Files -/

/-- Generated documents are schema documents. -/
theorem Catalog.Generates.exists_name {c : Catalog} {location : String} {ds : List Declaration}
    (h : c.Generates location ds) :
    ∃ name, location = "schema/" ++ name ∧ IsSchemaName name := by
  cases h with
  | operations | query => exact ⟨_, String.append_assoc .., _, Or.inl rfl⟩
  | shared => exact ⟨"root.graphql", rfl, "root", Or.inl rfl⟩

/-- Texts are not emitted for structured files. -/
theorem Catalog.Emits.medium_ne_structured {c : Catalog} {f : Fragment} (h : c.Emits f)
    (hpublished : medium c.publishedLocation = .sdl) {s : String} (htext : s ∈ f.contentText?) :
    medium f.location ≠ .structured := by
  cases h with
  | seed => exact fun hmedium => absurd (hpublished.symm.trans hmedium) (by decide)
  | document hgenerates =>
    obtain ⟨name, hlocation, hname⟩ := hgenerates.exists_name
    dsimp only [Fragment.ofText]
    rw [hlocation]
    rcases medium_of_isSchemaName hname "schema/" with hmedium | hmedium <;> simp [hmedium]
  | template _ _ => exact fun hmedium => absurd ((medium_template _).symm.trans hmedium) (by decide)
  | step _ _ _ => exact fun hmedium => absurd ((medium_template _).symm.trans hmedium) (by decide)
  | table _ htree =>
    obtain ⟨attributes, -, htree⟩ := Outcome.of_bind_eq_ok htree
    cases htree
    cases htext
  | _ => cases htext

variable {schemaName text : String} {scope : Scope} {first : Compilation} {P : Document → Prop}
  {dss : List (List Declaration)}

/-- The places besides the published schema to which more than texts is addressed. -/
def Compilation.treeLocations (first : Compilation) : List String :=
  locations (first.fragments.filter fun f =>
    f.location ≠ first.catalog.publishedLocation ∧ f.contentText? = none)

/-- What texts are not enough for can be put together of nothing: structured files, and a published
schema of which `P` holds. -/
def Compilation.Joins (first : Compilation) (dss : List (List Declaration))
    (P : Document → Prop) : Prop :=
  (∀ location ∈ first.treeLocations,
    Outcome.Holds (assembleTree location none (addressedTo location first.fragments))
      fun _ => True) ∧
  Outcome.Holds (documentKnown (first.catalog.knownTexts dss) first.catalog.publishedLocation
    (addressedTo first.catalog.publishedLocation first.fragments)) P

instance (first : Compilation) (dss : List (List Declaration)) (P : Document → Prop)
    [DecidablePred P] :
    Decidable (first.Joins dss P) := by
  unfold Compilation.Joins
  infer_instance

section Files

variable (hfirst : (compile schemaName scope text).outcome = .ok first)
  (hsdl : medium ("schema/" ++ schemaName) = .sdl)

include hfirst

include hsdl in
/-- What structured files are put together from is more than texts. -/
theorem Compilation.mem_treeLocations {location : String}
    (hmem : location ∈ locations first.fragments)
    (hmedium : medium location = .structured) : location ∈ first.treeLocations := by
  obtain ⟨-, -, hemit⟩ := Compilation.of_compile hfirst
  have hpublished : medium first.catalog.publishedLocation = .sdl :=
    Compilation.publishedLocation_eq hfirst ▸ hsdl
  rw [locations, Text.mem_distinct] at hmem
  obtain ⟨f, hf, rfl⟩ := List.mem_map.1 hmem
  have hnone : f.contentText? = none := by
    by_contra hsome
    obtain ⟨s, htext⟩ := Option.ne_none_iff_exists'.1 hsome
    exact (Catalog.emits_of_emit hemit f hf).medium_ne_structured hpublished htext hmedium
  have hother : f.location ≠ first.catalog.publishedLocation := by
    intro hsame
    rw [hsame, hpublished] at hmedium
    cases hmedium
  rw [Compilation.treeLocations, locations, Text.mem_distinct]
  exact List.mem_map_of_mem (List.mem_filter.2 ⟨hf, decide_eq_true ⟨hother, hnone⟩⟩)

variable (hback : Document.parse first.catalog.document.render = .ok first.catalog.document)
  (hidle : ∀ location ds, first.catalog.Generates location ds →
    Rounds.Idle scope (fileName location, renderDocument ds))

include hback

include hidle in
/-- Generated documents can be put together of nothing. -/
theorem Compilation.exists_body_of_idle {location : String} (hmedium : medium location = .sdl)
    (hother : location ≠ first.catalog.publishedLocation) :
    ∃ body, assembleBody location none (addressedTo location first.fragments) = .ok body := by
  obtain ⟨-, -, hemit⟩ := Compilation.of_compile hfirst
  have hreads : ∀ location ds, first.catalog.Generates location ds →
      Sdl.IsDocumentText (renderDocument ds) := by
    intro location ds hgenerates
    obtain ⟨own, hown, -⟩ := hidle location ds hgenerates
    obtain ⟨document, hparse, -⟩ := SchemaLoom.of_compile hown
    exact ⟨document, hparse⟩
  have htexts : ∀ f ∈ addressedTo location first.fragments,
      ∃ s ∈ f.contentText?, Sdl.IsDocumentText s := by
    intro f hf
    obtain ⟨hmem, rfl⟩ := location_of_mem_addressedTo hf
    have hemits := Catalog.emits_of_emit hemit f hmem
    exact hemits.isDocumentText_of hreads hback (hemits.patch_eq_none hother hmedium) hmedium
  obtain ⟨last, hlast⟩ := exists_foldlM_stepDocument Document.empty htexts
  unfold assembleBody
  rw [hmedium]
  exact ⟨last.render, congrArg (Except.map Document.render) hlast⟩

variable (hnamed : ∀ ds ∈ dss, ∀ d ∈ ds, d.IsNamed)

include hnamed

omit hfirst in
theorem Catalog.parse_knownTexts :
    ∀ k ∈ first.catalog.knownTexts dss, Document.parse k.text = .ok k.document := by
  intro k hk
  rcases List.mem_cons.1 hk with rfl | hk
  · exact hback
  · obtain ⟨ds, hds, rfl⟩ := List.mem_map.1 hk
    exact parse_declarations (hnamed ds hds)

omit hfirst in
/-- A document is put together as it can be told from what is known. -/
theorem Compilation.assembleBody_eq {location : String} (hmedium : medium location = .sdl)
    {fs : List Fragment} {doc : Document}
    (hdoc : documentKnown (first.catalog.knownTexts dss) location fs = .ok doc) :
    assembleBody location none fs = .ok doc.render := by
  unfold assembleBody
  rw [hmedium, ← documentKnown_eq (Catalog.parse_knownTexts hback hnamed), hdoc]
  rfl

include hsdl hidle

/-- **All fragments of a compilation can be put together of nothing**, if those can that texts are
not enough for. -/
theorem Compilation.Joins.exists_assemble (h : first.Joins dss P) :
    ∃ files, (assemble first.fragments []).outcome = .ok files := by
  obtain ⟨htrees, published, hpublished, -⟩ := h
  refine Artifact.exists_assemble fun location hlocation => ?_
  cases hmedium : medium location with
  | text =>
    unfold assembleBody
    rw [hmedium]
    exact ⟨_, rfl⟩
  | structured =>
    obtain ⟨body, hbody, -⟩ :=
      htrees location (Compilation.mem_treeLocations hfirst hsdl hlocation hmedium)
    unfold assembleBody
    rw [hmedium]
    exact ⟨body, hbody⟩
  | sdl =>
    by_cases hhere : location = first.catalog.publishedLocation
    · rw [hhere] at hmedium ⊢
      exact ⟨_, Compilation.assembleBody_eq hback hnamed hmedium hpublished⟩
    · exact Compilation.exists_body_of_idle hfirst hback hidle hmedium hhere

/-- **A schema with a table is built of nothing, if those files can be put together that texts are
not enough for**, and its schema documents are as they can be told from what is known
(`documentKnown`). -/
theorem Compilation.Joins.exists_files (h : first.Joins dss P)
    (htable : ∃ body ∈ first.catalog.document.objects, Catalog.saysTable scope body = true) :
    ∃ files, (filesOf schemaName scope text none).outcome = .ok files ∧
      ∀ location ∈ locations first.fragments, medium location = .sdl → ∀ doc,
        documentKnown (first.catalog.knownTexts dss) location (addressedTo location first.fragments)
          = .ok doc → ∃ file ∈ files, file.location = location ∧ file.body = doc.render := by
  obtain ⟨files, hfiles⟩ := h.exists_assemble hfirst hsdl hback hidle hnamed
  refine ⟨files, ?_, fun location hlocation hmedium doc hdoc => ?_⟩
  · unfold filesOf
    simp only [Report.outcome_bind, Report.outcome_mapError, Report.outcome_lift,
      outcome_publish_of_idle hfirst hidle htable]
    exact congrArg (Except.mapError BuildFault.compile) hfiles
  · obtain ⟨file, hfile, hhere, hbody⟩ := exists_file hfiles hlocation
    refine ⟨file, hfile, hhere, Except.ok.inj (hbody.symm.trans ?_)⟩
    exact Compilation.assembleBody_eq hback hnamed hmedium hdoc

end Files

end SchemaLoom
