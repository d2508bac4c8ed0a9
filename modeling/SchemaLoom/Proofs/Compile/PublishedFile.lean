/-
The file of the published schema.

It is put together from a text and the edits of the published schema alone
(`addressedTo_publish`), whatever a former build left.  That the text is appended to nothing,
like generated documents are, decides what the file keeps of it: of two definitions of one kind
and name the last one stays, in the place of the first.

The other way to lose something is by an edit.  Edits look for a type by its name and take an
interface of that name for it, so an interface in front of a type may be edited in its stead.
Whether one is can be told from the source and the edits.
-/
import SchemaLoom.Proofs.Artifact.Assembly
import SchemaLoom.Proofs.Compile.Published
import SchemaLoom.Proofs.Sdl.Keeping
import SchemaLoom.Proofs.Workspace.Files

namespace SchemaLoom

open Artifact Sdl Workspace

variable {schemaName text : String} {scope : Scope} {first : Compilation} {source : Document}

/-! ### Fragments -/

/-- A compilation compiles the document that its text is. -/
theorem Compilation.document_eq {c : Compilation}
    (h : (compile schemaName scope text).outcome = .ok c) :
    Document.parse text = .ok c.catalog.document := by
  obtain ⟨document, hparse, hcompile⟩ := SchemaLoom.of_compile h
  obtain ⟨hgather, -⟩ := of_compileDocument hcompile
  obtain ⟨-, hdocument, -, -⟩ := Catalog.rooted_of_gather hgather
  rw [hparse, hdocument]

/-- **The published schema starts from a text of the document, which edits follow.** -/
theorem addressedTo_publish {fragments : List Fragment}
    (h : (publish schemaName scope text).outcome = .ok fragments)
    (hfirst : (compile schemaName scope text).outcome = .ok first)
    (hspares : SparesPublished schemaName scope first)
    (hback : Document.parse first.catalog.document.render = .ok first.catalog.document) :
    ∃ start, Document.parse start = .ok first.catalog.document ∧
      addressedTo ("schema/" ++ schemaName) fragments
        = .ofText ("schema/" ++ schemaName) start
          :: first.catalog.publishedEdits.map (.ofEdit ("schema/" ++ schemaName)) := by
  unfold publish at h
  dsimp only at h
  rw [Report.outcome_bind] at h
  obtain ⟨all, hall, h⟩ := Outcome.of_bind_eq_ok h
  obtain ⟨-, -, hemit⟩ := Compilation.of_compile hfirst
  have hpublished := (Compilation.publishedLocation_eq hfirst).symm
  have haddressed := addressedTo_compileAll hall hfirst hspares
  have hplace : first.catalog.publishedLocation ∉ first.catalog.documentLocations := by
    intro hmem
    exact (hspares.1 _ hmem).1 hpublished.symm
  have hany := any_location_iff ("schema/" ++ schemaName) all
  rw [haddressed, hpublished, Catalog.addressedTo_emit hplace hemit, ← hpublished] at hany
  rw [hpublished, Catalog.addressedTo_emit hplace hemit, ← hpublished] at haddressed
  by_cases hnone : first.catalog.publishedEdits = []
  · rw [if_pos hnone] at haddressed hany
    rw [if_neg (by simp [hany])] at h
    cases h
    refine ⟨text, Compilation.document_eq hfirst, ?_⟩
    rw [addressedTo_cons, haddressed, hnone]
    simp [Fragment.ofText]
  · rw [if_neg hnone] at haddressed hany
    rw [if_pos (hany.2 (List.cons_ne_nil _ _))] at h
    cases h
    refine ⟨first.catalog.document.render, hback, ?_⟩
    rw [haddressed, Catalog.seed, hpublished]

/-! ### Files -/

/-- The file of the published schema is put together from a text of the document and its edits. -/
theorem exists_published_file {former : Option (FileTree × Path)} {files : List File}
    (hfiles : (filesOf schemaName scope text former).outcome = .ok files)
    (hparse : Document.parse text = .ok source)
    (hfirst : (compile schemaName scope text).outcome = .ok first)
    (hspares : SparesPublished schemaName scope first)
    (hback : Document.parse source.render = .ok source) :
    first.catalog.document = source ∧ ∃ file ∈ files, file.location = "schema/" ++ schemaName ∧
      ∃ start, Document.parse start = .ok source ∧
        assembleBody ("schema/" ++ schemaName) none (.ofText ("schema/" ++ schemaName) start
          :: first.catalog.publishedEdits.map (.ofEdit ("schema/" ++ schemaName)))
          = .ok file.body := by
  have hdocument := Compilation.document_eq hfirst
  rw [hparse] at hdocument
  cases hdocument
  refine ⟨rfl, ?_⟩
  unfold filesOf at hfiles
  simp only [Report.outcome_bind, Report.outcome_mapError, Report.outcome_lift] at hfiles
  obtain ⟨fragments, hpublish, hfiles⟩ := Outcome.of_bind_eq_ok hfiles
  obtain ⟨existing, hformer, hfiles⟩ := Outcome.of_bind_eq_ok hfiles
  replace hpublish := Outcome.of_mapError_eq_ok hpublish
  replace hfiles := Outcome.of_mapError_eq_ok hfiles
  obtain ⟨start, hstart, haddressed⟩ := addressedTo_publish hpublish hfirst hspares hback
  have hmem : "schema/" ++ schemaName ∈ locations fragments := by
    have hhere : Fragment.ofText ("schema/" ++ schemaName) start
        ∈ addressedTo ("schema/" ++ schemaName) fragments := by
      rw [haddressed]
      exact List.mem_cons_self
    rw [locations, Text.mem_distinct]
    exact List.mem_map.2 ⟨_, (List.mem_filter.1 hhere).1, rfl⟩
  obtain ⟨file, hfile, hlocation, hbody⟩ := exists_file hfiles hmem
  rw [lookup_formerFiles hformer (by simp), haddressed] at hbody
  exact ⟨file, hfile, hlocation, start, hstart, hbody⟩

/-- The published schema is written as its edits make it, if its place is that of a schema
document. -/
theorem exists_published {former : Option (FileTree × Path)} {files : List File}
    (hsdl : medium ("schema/" ++ schemaName) = .sdl)
    (hfiles : (filesOf schemaName scope text former).outcome = .ok files)
    (hparse : Document.parse text = .ok source)
    (hfirst : (compile schemaName scope text).outcome = .ok first)
    (hspares : SparesPublished schemaName scope first)
    (hback : Document.parse source.render = .ok source) :
    first.catalog.document = source ∧ ∃ file ∈ files, file.location = "schema/" ++ schemaName ∧
      ∃ published, file.body = published.render ∧
        first.catalog.publishedEdits.foldlM Document.edit (Document.empty.append source.definitions)
          = .ok published := by
  obtain ⟨hdocument, file, hfile, hlocation, start, hstart, hbody⟩ :=
    exists_published_file hfiles hparse hfirst hspares hback
  unfold assembleBody at hbody
  rw [hsdl] at hbody
  obtain ⟨published, hpublished, hbody⟩ := Outcome.of_map_eq_ok hbody
  rw [assembleDocument_ofText hstart] at hpublished
  exact ⟨hdocument, file, hfile, hlocation, published, hbody.symm,
    Outcome.of_mapError_eq_ok hpublished⟩

/-- **The file of the published schema keeps the definitions of the source exactly if no two of them
have the same kind and name, and no edit changes an interface (`SparesInterfaces`).** The first is
needed since the text is appended to nothing like a generated document, the second since an
interface in front of a type of the same name is taken for the type. A mere text is not edited at
all. -/
theorem published_keeps_iff {former : Option (FileTree × Path)} {files : List File}
    (hname : IsSchemaName schemaName)
    (hfiles : (filesOf schemaName scope text former).outcome = .ok files)
    (hparse : Document.parse text = .ok source)
    (hfirst : (compile schemaName scope text).outcome = .ok first)
    (hspares : SparesPublished schemaName scope first)
    (hback : Document.parse source.render = .ok source) :
    ∃ file ∈ files, file.location = "schema/" ++ schemaName ∧ ∃ published : Document,
      (Document.parse file.body = .ok published ∨ file.body = published.render) ∧
      (source.Keeps published ↔ medium ("schema/" ++ schemaName) = .text ∨
        (source.definitions.map (·.key)).Nodup ∧
          SparesInterfaces first.catalog.publishedEdits source.definitions) := by
  rcases medium_of_isSchemaName hname "schema/" with hsdl | htext
  · obtain ⟨-, file, hfile, hlocation, published, hbody, hedited⟩ :=
      exists_published hsdl hfiles hparse hfirst hspares hback
    refine ⟨file, hfile, hlocation, published, Or.inr hbody, ?_⟩
    rw [hsdl, keeps_iff hedited]
    simp
  · obtain ⟨-, file, hfile, hlocation, start, hstart, hbody⟩ :=
      exists_published_file hfiles hparse hfirst hspares hback
    unfold assembleBody at hbody
    rw [htext] at hbody ⊢
    have hstarts : start = file.body := by
      rw [← assembleText_ofText ("schema/" ++ schemaName) start first.catalog.publishedEdits]
      exact Except.ok.inj hbody
    refine ⟨file, hfile, hlocation, source, Or.inl (hstarts ▸ hstart), ?_⟩
    exact ⟨fun _ => Or.inl rfl, fun _ => Document.keeps_refl _⟩

/-- A schema with a type that is edited, an extension of it, and a scalar. -/
def weatherSchema : String :=
  "type Query \x7b
  forecast: Int @auth(provider: IAM)
\x7d

extend type Query \x7b
  archive: Int
\x7d

scalar Celsius\n"

theorem weather_keeps : ∃ files source,
    (filesOf "schema.graphql" none weatherSchema none).outcome = .ok files ∧
      Document.parse weatherSchema = .ok source ∧
      ∃ file ∈ files, file.location = "schema/" ++ "schema.graphql" ∧ ∃ published : Document,
        (Document.parse file.body = .ok published ∨ file.body = published.render) ∧
        source.Keeps published := by
  have hchecks : Outcome.Holds (compile "schema.graphql" none weatherSchema).outcome fun first =>
      Outcome.Holds (Document.parse weatherSchema) fun source =>
        source.render = weatherSchema ∧ first.Spares "schema.graphql" ∧
          (∀ f ∈ first.fragments,
            Rounds.generated? first.catalog.publishedLocation f = none) ∧
          (source.definitions.map (·.key)).Nodup ∧
          ∀ d ∈ source.definitions, d.kind ≠ .interface := by
    decide +kernel
  have hbuilt : Outcome.Holds (filesOf "schema.graphql" none weatherSchema none).outcome
      fun _ => True := by
    decide +kernel
  obtain ⟨first, hfirst, source, hparse, hsame, hspares, hnone, hnodup, hkinds⟩ := hchecks
  obtain ⟨files, hfiles, -⟩ := hbuilt
  obtain ⟨file, hfile, hlocation, published, hbody, hkeeps⟩ :=
    published_keeps_iff ⟨"schema", Or.inl (by decide)⟩ hfiles hparse hfirst
      (sparesPublished_of_none hspares hnone) (hsame ▸ hparse)
  refine ⟨files, source, hfiles, hparse, file, hfile, hlocation, published, hbody, ?_⟩
  exact hkeeps.2 (Or.inr ⟨hnodup, sparesInterfaces_of_none hkinds _⟩)

end SchemaLoom
