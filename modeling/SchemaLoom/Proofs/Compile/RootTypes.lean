/-
Which files declare the root types.

Generated operations extend `Query` and `Mutation`, so these have to be declared somewhere.  The
published schema declares them if the source does, and no edit and no generated document changes
that (`Compilation.published_roots`).  The shared declarations start from what a former build
left, and declare in addition those that the source of this build does not
(`Compilation.shared_roots`).

What is shared is made of generated declarations alone (`IsGenerated`), so it is read back from
its file as it was put together.  That makes it an invariant of builds: the next one reads what
this one printed, adds generated declarations to it, and again has no declaration twice.

Nothing is ever taken away from a generated document, and that is why a root type that the source
begins to declare is declared twice from then on.
-/
import SchemaLoom.Proofs.Artifact.Assembly
import SchemaLoom.Proofs.Artifact.Keys
import SchemaLoom.Proofs.Artifact.SchemaText
import SchemaLoom.Proofs.Catalog.Dispatch
import SchemaLoom.Proofs.Catalog.Placement
import SchemaLoom.Proofs.Catalog.PublishedEdit
import SchemaLoom.Proofs.Compile.Ending
import SchemaLoom.Proofs.Compile.PublishedFile
import SchemaLoom.Proofs.Surface.Printing

namespace SchemaLoom

open Artifact Surface
open Sdl (Document Definition DefinitionKind Scope)

/-- The types that generated operations extend. -/
def rootNames : List String := ["Query", "Mutation"]

/-- The kind and name of the declaration of a root type. -/
def rootKey (name : String) : DefinitionKind × Option String := (.object, some name)

namespace Catalog

variable {c : Catalog}

/-! ### Generated declarations -/

theorem connectionName_not_mem (type : String) : connectionName type ∉ rootNames := by
  intro hmem
  have hstart : ∀ name ∈ rootNames, (name.toList.drop 1).head? ≠ some 'o' := by decide
  refine hstart _ hmem ?_
  simp [connectionName]

/-- **Of generated declarations only those that are shared declare a root type, which the document
does not declare.** -/
theorem Generates.of_root {location : String} {ds : List Declaration} (h : c.Generates location ds)
    {d : Declaration} (hd : d ∈ ds) {name : String} (hname : name ∈ rootNames)
    (hkey : d.toDefinition.key = rootKey name) :
    location = sharedLocation ∧ name ∉ c.document.namesOf [.object] := by
  cases h with
  | operations _ hdeclarations =>
    obtain ⟨key, condition, filter, create, update, -, -, -, -, -, rfl⟩ :=
      of_operationDeclarations hdeclarations
    simp only [List.mem_cons, List.not_mem_nil, or_false] at hd
    rcases hd with rfl | rfl | rfl | rfl | rfl | rfl | rfl | rfl
    case inr.inr.inl =>
      have hsame : connectionName _ = name := Option.some.inj (Prod.mk.inj hkey).2
      exact absurd (hsame ▸ hname) (connectionName_not_mem _)
    all_goals cases (Prod.mk.inj hkey).1
  | query _ _ hdeclarations =>
    obtain ⟨o, inputs, rfl, -, -⟩ := of_queryDeclarations hdeclarations
    rcases List.mem_cons.1 hd with rfl | hinput
    · cases (Prod.mk.inj hkey).1
    · obtain ⟨_, _, rfl⟩ := exists_input_of_query hdeclarations hinput
      cases (Prod.mk.inj hkey).1
  | shared _ hdeclarations =>
    refine ⟨rfl, ?_⟩
    obtain ⟨used, -, -, hmem⟩ := mem_sharedDeclarations hdeclarations
    rcases (hmem d).1 hd with ⟨root, -, hnot, rfl⟩ | hcommon | ⟨enum, -, rfl⟩ | ⟨type, -, hmirror⟩
    · have hsame : root = name := Option.some.inj (Prod.mk.inj hkey).2
      rw [hsame, declares] at hnot
      simpa using hnot
    · have hkinds : ∀ d ∈ commonDeclarations, d.toDefinition.kind ≠ .object := by decide
      exact absurd (Prod.mk.inj hkey).1 (hkinds d hcommon)
    · cases (Prod.mk.inj hkey).1
    · obtain ⟨_, -, -, rfl⟩ := of_mirror?_eq_some hmirror
      cases (Prod.mk.inj hkey).1

/-- A root type that the document does not declare is declared among what is shared. -/
theorem root_mem_sharedDeclarations {ds : List Declaration} (h : sharedDeclarations c = .ok ds)
    {name : String} (hname : name ∈ rootNames) (hnot : name ∉ c.document.namesOf [.object]) :
    Declaration.root name ∈ ds := by
  obtain ⟨used, -, -, hmem⟩ := mem_sharedDeclarations h
  exact (hmem _).2 (Or.inl ⟨name, hname, by simpa [declares] using hnot, rfl⟩)

/-! ### What is emitted -/

/-- The published schema starts from the document if anything is addressed to it. -/
theorem seed_mem_of_emit {fs : List Fragment} (h : c.emit.outcome = .ok fs) {f : Fragment}
    (hf : f ∈ fs) (hhere : f.location = c.publishedLocation) : c.seed ∈ fs := by
  simp only [emit, Report.outcome_bind, Report.outcome_mapM, Report.outcome_lift] at h
  obtain ⟨tables, -, h⟩ := Outcome.of_bind_eq_ok h
  obtain ⟨shared, -, h⟩ := Outcome.of_bind_eq_ok h
  split at h
  · cases h
    exact List.mem_cons_self
  next hnone =>
    cases h
    exact absurd (List.any_eq_true.2 ⟨f, hf, by simpa using hhere⟩) hnone

end Catalog

/-! ### Documents of generated declarations

A document that is made of generated declarations stays one when others of the kind are put into
it (`IsGenerated.drafts`), and is read back from its text.
-/

/-- The document is made of generated declarations, and has none of them twice. -/
structure IsGenerated (doc : Document) : Prop where
  declared : ∀ d ∈ doc.definitions, ∃ e : Declaration, e.IsNamed ∧ e.toDefinition = d
  nodup : doc.keys.Nodup

namespace IsGenerated

variable {doc last : Document} {location : String} {fs : List Fragment}

theorem empty : IsGenerated .empty := ⟨(fun _ h => nomatch h), List.nodup_nil⟩

theorem exists_declarations (h : IsGenerated doc) :
    ∃ es : List Declaration, (∀ e ∈ es, e.IsNamed) ∧ doc = ⟨es.map (·.toDefinition)⟩ := by
  have hall : ∀ ds :
      List Definition, (∀ d ∈ ds, ∃ e : Declaration, e.IsNamed ∧ e.toDefinition = d) →
      ∃ es : List Declaration, (∀ e ∈ es, e.IsNamed) ∧ ds = es.map (·.toDefinition) := by
    intro ds hds
    induction ds with
    | nil => exact ⟨[], (fun _ h => nomatch h), rfl⟩
    | cons d ds ih =>
      rw [List.forall_mem_cons] at hds
      obtain ⟨⟨e, he, rfl⟩, hrest⟩ := hds
      obtain ⟨es, hes, rfl⟩ := ih hrest
      exact ⟨e :: es, List.forall_mem_cons.2 ⟨he, hes⟩, rfl⟩
  obtain ⟨es, hes, hsame⟩ := hall doc.definitions h.declared
  exact ⟨es, hes, by rw [← hsame]⟩

/-- **Generated declarations are read back from the file that they are printed to.** -/
theorem parse_render (h : IsGenerated doc) :
    Document.parse doc.render = .ok doc ∧ ∀ c ∈ doc.render.toList, c ≠ '\r' := by
  obtain ⟨es, hes, rfl⟩ := h.exists_declarations
  by_cases hnone : es = []
  · subst hnone
    refine ⟨rfl, ?_⟩
    show ∀ c ∈ "".toList, c ≠ '\r'
    simp
  · rw [render_declarations hnone hes]
    exact ⟨parse_declarations hes, ne_return_renderDocument hes⟩

end IsGenerated

/-- A text provides the definitions that it is read as. -/
theorem provides_ofText {location text : String} {doc : Document}
    (h : Document.parse text = .ok doc)
    {d : Definition} :
    (Fragment.ofText location text).Provides location d ↔ d ∈ doc.definitions := by
  have htext :
      (Fragment.ofText location text).payload.definitions location = .ok doc.definitions := by
    simp only [Fragment.ofText, Payload.definitions, parseSchema, h]
    rfl
  unfold Fragment.Provides
  rw [htext]
  constructor
  · rintro ⟨-, ds, hdefinitions, hmem⟩
    exact Except.ok.inj hdefinitions ▸ hmem
  · intro hmem
    exact ⟨rfl, doc.definitions, rfl, hmem⟩

/-- A generated document provides no root type, unless it is what is shared. -/
theorem Catalog.Generates.root_of_provides {c : Catalog} {location : String} {ds : List Declaration}
    (h : c.Generates location ds) (hnamed : ∀ d ∈ ds, d.IsNamed) {d : Definition}
    (hprovides : (Fragment.ofText location (renderDocument ds)).Provides location d) {name : String}
    (hname : name ∈ rootNames) (hkey : d.key = rootKey name) :
    location = sharedLocation ∧ name ∉ c.document.namesOf [.object] := by
  obtain ⟨e, he, rfl⟩ := List.mem_map.1 ((provides_ofText (parse_declarations hnamed)).1 hprovides)
  exact h.of_root he hname hkey

/-- Generated declarations that are added to generated declarations make generated declarations. -/
theorem IsGenerated.drafts {doc last : Document} {location : String} {fs : List Fragment}
    (h : IsGenerated doc) (hdrafts : Drafts location doc fs last)
    (htexts : ∀ f ∈ fs, ∃ ds : List Declaration, (∀ d ∈ ds, d.IsNamed) ∧
      f = .ofText location (renderDocument ds)) : IsGenerated last := by
  refine ⟨fun d hd => ?_, hdrafts.nodup_keys h.nodup⟩
  have hplain : ∀ f ∈ fs, f.patch = none := by
    intro f hf
    obtain ⟨ds, -, rfl⟩ := htexts f hf
    rfl
  rcases hdrafts.of_mem_definitions hplain hd with hold | ⟨f, hf, hgives⟩
  · exact h.declared d hold
  · obtain ⟨ds, hds, rfl⟩ := htexts f hf
    obtain ⟨e, he, rfl⟩ := List.mem_map.1 ((provides_ofText (parse_declarations hds)).1 hgives)
    exact ⟨e, hds e he, rfl⟩

/-! ### Root types -/

section Compilation

variable {schemaName text : String} {scope : Scope} {first : Compilation}

/-- A type that is said to be a table is stripped of what says so. -/
theorem Compilation.exists_stripEdit (hfirst : (compile schemaName scope text).outcome = .ok first)
    {body : Sdl.ObjectType} (hbody : body ∈ first.catalog.document.objects)
    (hsaid : Catalog.saysTable scope body = true) :
    ∃ e ∈ stripEdits first.catalog, e.type = body.name := by
  obtain ⟨document, -, hcompile⟩ := SchemaLoom.of_compile hfirst
  obtain ⟨hgather, -⟩ := of_compileDocument hcompile
  obtain ⟨-, -, hscope, -⟩ := Catalog.rooted_of_gather hgather
  obtain ⟨hinside, hany⟩ := (Bool.and_eq_true _ _).mp hsaid
  obtain ⟨d, hd, hmodel⟩ := List.any_eq_true.1 hany
  have hsite : Sdl.Site.type (.object body) ∈ first.catalog.document.sites :=
    Document.type_mem_sites.2 (Document.mem_declarations.2 (Document.mem_objects.1 hbody))
  have hinternal : d.name ∈ internalDirectives := by
    rw [of_decide_eq_true hmodel]
    decide
  exact ⟨_, Catalog.mem_stripEdits hsite (hscope ▸ hinside) rfl hd hinternal, rfl⟩

section Tables

variable (hfirst : (compile schemaName scope text).outcome = .ok first)
  (htable : ∃ body ∈ first.catalog.document.objects, Catalog.saysTable scope body = true)

include hfirst htable

/-- A type that is said to be a table has one. -/
theorem Compilation.tables_ne_nil : first.catalog.tables ≠ [] := by
  obtain ⟨document, -, hcompile⟩ := SchemaLoom.of_compile hfirst
  obtain ⟨hgather, -⟩ := of_compileDocument hcompile
  obtain ⟨-, hdocument, -, -⟩ := Catalog.rooted_of_gather hgather
  obtain ⟨before, hcollected, -, hsame⟩ := Catalog.exists_collected_of_gather hgather
  obtain ⟨body, hbody, hsaid⟩ := htable
  rw [hdocument] at hbody
  have hknown : body ∈ before.tables.map (·.definition) := by
    rw [(Catalog.declares_of_collected hcollected).tables]
    exact List.mem_filter.2 ⟨hbody, hsaid⟩
  obtain ⟨t, ht, -⟩ := List.mem_map.1 hknown
  have hnames : first.catalog.tableNames = before.tableNames :=
    hsame ▸ (Catalog.kin_classify before).tableNames
  intro hnone
  rw [Catalog.tableNames, hnone, List.map_nil, eq_comm, Catalog.tableNames,
    List.map_eq_nil_iff] at hnames
  rw [hnames] at ht
  cases ht

/-- The published schema is stripped of what says so. -/
theorem Compilation.exists_strip :
    ∃ e ∈ first.catalog.publishedEdits, Fragment.ofEdit
      ("schema/" ++ schemaName) e ∈ first.fragments := by
  obtain ⟨-, -, hemit⟩ := Compilation.of_compile hfirst
  obtain ⟨body, hbody, hsaid⟩ := htable
  obtain ⟨e, hstrip, -⟩ := Compilation.exists_stripEdit hfirst hbody hsaid
  obtain ⟨tables, shared, -, -, hall⟩ := Catalog.exists_of_emit hemit
  refine ⟨e, List.mem_append_right _ hstrip, hall _ (List.mem_append_right _ ?_)⟩
  refine List.mem_map.2 ⟨e, hstrip, ?_⟩
  rw [Compilation.publishedLocation_eq hfirst]

/-- A source with a table gives rise to a published schema and to shared declarations. -/
theorem Compilation.schema_mem_locations :
    "schema/" ++ schemaName ∈ locations first.fragments ∧
      sharedLocation ∈ locations first.fragments := by
  obtain ⟨e, -, hstrip⟩ := Compilation.exists_strip hfirst htable
  obtain ⟨ds, -, hshared⟩ := Catalog.exists_shared_of_emit (Compilation.of_compile hfirst).2.2
    (Compilation.tables_ne_nil hfirst htable)
  exact ⟨(mem_addressedTo hstrip).1, (mem_addressedTo hshared).1⟩

end Tables

variable {fragments : List Fragment} {source : Document}

/-- What comes of a source with a table is emitted by its own compilation, if nothing comes of what
is generated. -/
theorem outcome_publish_of_idle (hfirst : (compile schemaName scope text).outcome = .ok first)
    (hidle : ∀ location ds, first.catalog.Generates location ds →
      Rounds.Idle scope (fileName location, renderDocument ds))
    (htable : ∃ body ∈ first.catalog.document.objects, Catalog.saysTable scope body = true) :
    (publish schemaName scope text).outcome = .ok first.fragments := by
  obtain ⟨e, -, hstrip⟩ := Compilation.exists_strip hfirst htable
  have hany : (first.fragments.any fun f => f.location = "schema/" ++ schemaName) = true :=
    List.any_eq_true.2 ⟨_, hstrip, decide_eq_true rfl⟩
  unfold publish
  dsimp only
  rw [Report.outcome_bind, outcome_compileAll_of_idle hfirst hidle, Outcome.ok_bind, if_pos hany]
  rfl

/-- **All that comes of a source with a table is emitted by its own compilation.** -/
theorem outcome_publish (hfirst : (compile schemaName scope text).outcome = .ok first)
    (hgives : GivesNames schemaName scope text)
    (htable : ∃ body ∈ first.catalog.document.objects, Catalog.saysTable scope body = true) :
    (publish schemaName scope text).outcome = .ok first.fragments :=
  outcome_publish_of_idle hfirst (fun _ _ => idle_of_generates hgives hfirst) htable

theorem exists_first_of_publish (hpublish : (publish schemaName scope text).outcome = .ok fragments)
    (hgives : GivesNames schemaName scope text) (hparse : Document.parse text = .ok source)
    (htable : ∃ body ∈ source.objects, Catalog.saysTable scope body = true) :
    ∃ first, (compile schemaName scope text).outcome = .ok first ∧
      first.catalog.document = source ∧ fragments = first.fragments := by
  have hall := hpublish
  unfold publish at hall
  dsimp only at hall
  rw [Report.outcome_bind] at hall
  obtain ⟨all, hall, -⟩ := Outcome.of_bind_eq_ok hall
  obtain ⟨first, hfirst, -⟩ := compileAll_eq_first hgives hall
  have hdocument := Compilation.document_eq hfirst
  rw [hparse] at hdocument
  cases hdocument
  rw [outcome_publish hfirst hgives htable] at hpublish
  cases hpublish
  exact ⟨first, hfirst, rfl, rfl⟩

section Fragments

variable (hfirst : (compile schemaName scope text).outcome = .ok first)
  (hgives : GivesNames schemaName scope text)

include hfirst hgives

/-- What a fragment of a schema document is: about the published schema, or a generated document. -/
theorem Compilation.schema_fragment {f : Fragment} (hf : f ∈ first.fragments) {name : String}
    (hhere : f.location = "schema/" ++ name) :
    f = first.catalog.seed ∨
      (∃ e ∈ first.catalog.publishedEdits, f = .ofEdit first.catalog.publishedLocation e) ∨
      ∃ ds, first.catalog.Generates f.location ds ∧ (∀ d ∈ ds, d.IsNamed) ∧
        f = .ofText f.location (renderDocument ds) := by
  obtain ⟨hdocument, htables⟩ := Compilation.isNamed hgives hfirst
  obtain ⟨-, -, hemit⟩ := Compilation.of_compile hfirst
  rcases (Catalog.emits_of_emit hemit f hf).kind with hseed | hedit |
    ⟨ds, hgenerates, hsame⟩ | haside
  · exact Or.inl hseed
  · exact Or.inr (Or.inl hedit)
  · exact Or.inr (Or.inr ⟨ds, hgenerates, hgenerates.isNamed hdocument htables, hsame⟩)
  · exact absurd hhere (haside.ne_schema name)

/-- All that is addressed to another schema document than the published one are generated
documents. -/
theorem Compilation.exists_generates {name : String} (hother : schemaName ≠ name) :
    ∀ f ∈ addressedTo ("schema/" ++ name) first.fragments,
      ∃ ds, first.catalog.Generates ("schema/" ++ name) ds ∧ (∀ d ∈ ds, d.IsNamed) ∧
        f = .ofText ("schema/" ++ name) (renderDocument ds) := by
  have hapart : first.catalog.publishedLocation ≠ "schema/" ++ name := by
    intro hsame
    rw [Compilation.publishedLocation_eq hfirst] at hsame
    exact hother ((String.append_right_inj _).1 hsame)
  intro f hf
  obtain ⟨hmem, hhere⟩ := location_of_mem_addressedTo hf
  rcases Compilation.schema_fragment hfirst hgives hmem hhere with rfl | ⟨e, -, rfl⟩ | hgenerates
  · exact absurd hhere hapart
  · exact absurd hhere hapart
  · exact hhere ▸ hgenerates

/-- **Another schema document than the published one is put together of whatever a former build left
there**, as long as that can be read. -/
theorem Compilation.exists_body {name : String} (hother : schemaName ≠ name)
    (hmedium : medium ("schema/" ++ name) = .sdl) {existing : Option String} {start : Document}
    (hstart : startDocument ("schema/" ++ name) existing = .ok start) :
    ∃ body, assembleBody ("schema/" ++ name) existing
      (addressedTo ("schema/" ++ name) first.fragments) = .ok body := by
  have htexts : ∀ f ∈ addressedTo ("schema/" ++ name) first.fragments,
      ∃ s ∈ f.contentText?, Sdl.IsDocumentText s := by
    intro f hf
    obtain ⟨ds, -, hnamed, rfl⟩ := Compilation.exists_generates hfirst hgives hother f hf
    exact ⟨_, rfl, _, parse_declarations hnamed⟩
  obtain ⟨last, hlast⟩ := exists_foldlM_stepDocument start htexts
  refine ⟨last.render, ?_⟩
  unfold assembleBody assembleDocument
  rw [hmedium]
  dsimp only
  rw [hstart, Outcome.ok_bind, hlast]
  rfl

/-- Schema documents may be replaced. -/
theorem Compilation.replaceable_of_schema (name : String) :
    ∀ f ∈ addressedTo ("schema/" ++ name) first.fragments, f.replaceable = true := by
  intro f hf
  obtain ⟨hmem, hhere⟩ := location_of_mem_addressedTo hf
  rcases Compilation.schema_fragment hfirst hgives hmem hhere with
      rfl | ⟨e, -, rfl⟩ | ⟨ds, -, -, hsame⟩
  · rfl
  · rfl
  · rw [hsame]
    rfl

/-- **What is shared has a root type if it had it before, or else if the source does not declare
it**, and is still made of generated declarations. -/
theorem Compilation.shared_roots
    (htable : ∃ body ∈ first.catalog.document.objects, Catalog.saysTable scope body = true)
    (hother : schemaName ≠ "root.graphql") {existing : Option String} {start : Document}
    (hstart : startDocument sharedLocation existing = .ok start) (hgenerated : IsGenerated start)
    {body : String} (hbody : assembleBody sharedLocation existing
      (addressedTo sharedLocation first.fragments) = .ok body) :
    ∃ doc : Document, body = doc.render ∧ IsGenerated doc ∧ ∀ root ∈ rootNames,
      rootKey root ∈ doc.keys ↔
        rootKey root ∈ start.keys ∨ root ∉ first.catalog.document.namesOf [.object] := by
  obtain ⟨hdocument, htables⟩ := Compilation.isNamed hgives hfirst
  obtain ⟨-, -, hemit⟩ := Compilation.of_compile hfirst
  have htexts := Compilation.exists_generates hfirst hgives hother
  have hmedium : medium sharedLocation = .sdl := by decide
  cases makes_of_assembleBody hbody with
  | text htext => exact absurd (hmedium.symm.trans htext) (by decide)
  | structured hstructured => exact absurd (hmedium.symm.trans hstructured) (by decide)
  | @sdl _ doc _ hstart' hdrafts =>
    rw [hstart] at hstart'
    cases hstart'
    refine ⟨doc, rfl, hgenerated.drafts hdrafts fun f hf => ?_, fun root hroot => ?_⟩
    · obtain ⟨ds, -, hnamed, hsame⟩ := htexts f hf
      exact ⟨ds, hnamed, hsame⟩
    rw [hdrafts.mem_keys_iff]
    refine or_congr_right ⟨?_, fun hnot => ?_⟩
    · rintro ⟨f, hf, d, hprovides, hkey⟩
      obtain ⟨ds, hgenerates, hnamed, rfl⟩ := htexts f hf
      exact (hgenerates.root_of_provides hnamed hprovides hroot hkey).2
    · have hsome := Compilation.tables_ne_nil hfirst htable
      obtain ⟨ds, hdeclarations, hmem⟩ := Catalog.exists_shared_of_emit hemit hsome
      have hnamed := (Catalog.Generates.shared hsome hdeclarations).isNamed hdocument htables
      have hrootmem := Catalog.root_mem_sharedDeclarations hdeclarations hroot hnot
      exact ⟨_, List.mem_filter.2 ⟨hmem, decide_eq_true rfl⟩, _,
        (provides_ofText (parse_declarations hnamed)).2 (List.mem_map_of_mem hrootmem), rfl⟩

/-- Where the published schema is a mere text, it is the source as it is written. -/
theorem Compilation.body_of_text (htext : medium ("schema/" ++ schemaName) = .text)
    (htable : ∃ body ∈ first.catalog.document.objects, Catalog.saysTable scope body = true)
    {body : String} (hbody : assembleBody ("schema/" ++ schemaName) none
      (addressedTo ("schema/" ++ schemaName) first.fragments) = .ok body) :
    body = first.catalog.document.render := by
  obtain ⟨-, -, hemit⟩ := Compilation.of_compile hfirst
  have hpublished := Compilation.publishedLocation_eq hfirst
  have hplace : first.catalog.publishedLocation ∉ first.catalog.documentLocations := by
    intro hmem
    have hsdl := Catalog.medium_of_documentLocations (Compilation.isNamed hgives hfirst).2 hmem
    rw [hpublished, htext] at hsdl
    cases hsdl
  obtain ⟨e, he, -⟩ := Compilation.exists_strip hfirst htable
  unfold assembleBody at hbody
  rw [htext, ← hpublished, Catalog.addressedTo_emit hplace hemit,
    if_neg (List.ne_nil_of_mem he), Catalog.seed] at hbody
  cases hbody
  exact assembleText_ofText _ _ _

/-- Where it is a schema document, what is drafted into it leaves the root types to the source. -/
theorem Compilation.rootKey_mem_iff
    (hback : Document.parse first.catalog.document.render = .ok first.catalog.document)
    (hseed : first.catalog.seed ∈ addressedTo ("schema/" ++ schemaName) first.fragments)
    (hother : schemaName ≠ "root.graphql") {doc : Document}
    (hdrafts : Drafts ("schema/" ++ schemaName) .empty
      (addressedTo ("schema/" ++ schemaName) first.fragments) doc)
    {root : String} (hroot : root ∈ rootNames) :
    rootKey root ∈ doc.keys ↔ root ∈ first.catalog.document.namesOf [.object] := by
  have hapart : "schema/" ++ schemaName ≠ sharedLocation := by
    intro hsame
    exact hother ((String.append_right_inj _).1 hsame)
  have hsource : ∀ d, first.catalog.seed.Provides ("schema/" ++ schemaName) d →
      d ∈ first.catalog.document.definitions := fun d hprovides => by
    rw [← (location_of_mem_addressedTo hseed).2] at hprovides
    exact (provides_ofText hback).1 hprovides
  rw [← Document.mem_keys_object, hdrafts.mem_keys_iff]
  constructor
  · rintro (hnone | ⟨f, hf, d, hprovides, hkey⟩)
    · cases hnone
    · obtain ⟨hmem, hhere⟩ := location_of_mem_addressedTo hf
      rcases Compilation.schema_fragment hfirst hgives hmem hhere with rfl | ⟨e, -, rfl⟩ |
        ⟨ds, hgenerates, hnamed, hsame⟩
      · exact List.mem_map.2 ⟨d, hsource d hprovides, hkey⟩
      · cases hprovides.1
      · rw [hhere] at hsame hgenerates
        exact absurd (hgenerates.root_of_provides hnamed (hsame ▸ hprovides) hroot hkey).1 hapart
  · intro hdeclared
    obtain ⟨d, hd, hkey⟩ := List.mem_map.1 hdeclared
    refine Or.inr ⟨first.catalog.seed, hseed, d, ?_, hkey⟩
    rw [← (location_of_mem_addressedTo hseed).2]
    exact (provides_ofText hback).2 hd

/-- **The published schema has a root type exactly once if the source declares it, and not at all
otherwise**, as `objectsNamed` counts them. -/
theorem Compilation.published_roots
    (hback : Document.parse first.catalog.document.render = .ok first.catalog.document)
    (htable : ∃ body ∈ first.catalog.document.objects, Catalog.saysTable scope body = true)
    (honce : ∀ root ∈ rootNames, (first.catalog.document.objectsNamed root).length ≤ 1)
    (hother : schemaName ≠ "root.graphql") {body : String}
    (hbody : assembleBody ("schema/" ++ schemaName) none
      (addressedTo ("schema/" ++ schemaName) first.fragments) = .ok body) :
    ∃ doc : Document, body = doc.render ∧ ∀ root ∈ rootNames,
      (doc.objectsNamed root).length
        = if root ∈ first.catalog.document.namesOf [.object] then 1 else 0 := by
  obtain ⟨-, -, hemit⟩ := Compilation.of_compile hfirst
  have hpublished := Compilation.publishedLocation_eq hfirst
  obtain ⟨e, -, hstrip⟩ := Compilation.exists_strip hfirst htable
  have hmakes := makes_of_assembleBody hbody
  cases hmedium : medium ("schema/" ++ schemaName) with
  | text =>
    refine ⟨first.catalog.document, Compilation.body_of_text hfirst hgives hmedium htable hbody, ?_⟩
    exact fun root hroot => Document.length_objectsNamed_of_le (honce root hroot)
  | structured =>
    -- A file of another kind would have to interpret edits of schemas.
    have hedit : Fragment.ofEdit ("schema/" ++ schemaName) e
        ∈ addressedTo ("schema/" ++ schemaName) first.fragments :=
      List.mem_filter.2 ⟨hstrip, decide_eq_true rfl⟩
    refine absurd ⟨?_, .sdl e, rfl, ?_⟩ (hmakes.not_isMisplaced hedit rfl)
    · show medium ("schema/" ++ schemaName) ≠ .text
      rw [hmedium]
      decide
    · show ¬ (medium ("schema/" ++ schemaName)).Interprets (.sdl e)
      rw [hmedium]
      intro hreads
      cases hreads
  | sdl =>
    cases hmakes with
    | text htext => exact absurd (hmedium.symm.trans htext) (by decide)
    | structured hstructured => exact absurd (hmedium.symm.trans hstructured) (by decide)
    | @sdl start doc _ hstart hdrafts =>
      cases hstart
      have hseed : first.catalog.seed ∈ addressedTo ("schema/" ++ schemaName) first.fragments :=
        List.mem_filter.2 ⟨Catalog.seed_mem_of_emit hemit hstrip hpublished.symm,
          decide_eq_true hpublished⟩
      refine ⟨doc, rfl, fun root hroot => ?_⟩
      rw [Document.length_objectsNamed_of_nodup (hdrafts.nodup_keys List.nodup_nil)]
      refine if_congr ?_ rfl rfl
      rw [← Document.mem_keys_object]
      exact Compilation.rootKey_mem_iff hfirst hgives hback hseed hother hdrafts hroot

end Fragments

end Compilation

end SchemaLoom
