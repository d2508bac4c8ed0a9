/-
By which annotations what is written is opened to callers.

The published schema starts from the source.  One edit opens the type of a table, and what comes
behind it are edits that spare annotations, and the operations of a table that has the name of
the published schema itself.  These take the place of a type only if it is named like one of
theirs.  So `IsOpened` is an invariant of the fragments behind that edit (`IsOpened.step`).

An operation is declared by its own document, whatever a former build left there.  Behind it the
same place gets nothing but edits, which no extension is in reach of, and documents of its table.
So `Extends` is an invariant of what follows the document (`Extends.step`).

Both are statements about the document that is printed, not about the text, and need no reading
back.  Reading back comes in where a document starts from the source.  What the condition on
names is for is shown at the end by two schemas without it.
-/
import SchemaLoom.Proofs.Catalog.Drafts
import SchemaLoom.Proofs.Compile.Known
import SchemaLoom.Proofs.Compile.RootTypes
import SchemaLoom.Proofs.Sdl.Restoring.Document

namespace SchemaLoom

open Artifact Surface Workspace
open Access (OpensOnly OpensEach annotations)
open Sdl (Document Definition Scope extensionKey)

/-! ### Types

Once a type is opened to the callers of its rules it stays so (`IsOpened`), whatever edits and
definitions come behind.
-/

/-- The operations of `s` leave the type `name` alone: it is not their connection, and not one of
their inputs either, unless the document is read back from its rendering. -/
def Sdl.Document.Spares (doc : Document) (s : Table) (name : String) : Prop :=
  name ≠ connectionName s.name ∧ (doc.IsApart ∨ name ∉ inputNames s)

namespace Catalog

variable {c : Catalog} {s t : Table} {before behind : List Table} {ds : List Declaration}
  {mid next last : Document} {f : Fragment} {location stem : String}

/-- The document `doc` has the type of `t`, opened to the callers of its rules.  It is an object
type where that is so in the document that was read back. -/
def IsOpened (c : Catalog) (t : Table) (doc : Document) : Prop :=
  ∃ d, doc.type? t.name = some d ∧ OpensEach t.rules d.directives ∧
    (c.document.IsApart → d.kind = .object)

theorem IsOpened.edit {e : Sdl.Edit} (h : c.IsOpened t mid) (he : c.Publishes e)
    (hedit : mid.edit e = .ok next) : c.IsOpened t next := by
  obtain ⟨d, htype, hopens, hkind⟩ := h
  rcases Document.type?_edit hedit t.name with ⟨-, d₀, d₁, hfound, hone, hnext⟩ | ⟨-, hnext⟩
  · cases htype.symm.trans hfound
    have hsame : d₁.kind = d.kind := congrArg Prod.fst (Definition.key_edit hone)
    refine ⟨d₁, hnext, ?_, fun hapart => hsame.trans (hkind hapart)⟩
    rcases Definition.directives_edit hone with hdirectives | hdirectives
    · exact hdirectives ▸ hopens
    · exact hdirectives ▸ he.opensEach hopens
  · exact ⟨d, hnext.trans htype, hopens, hkind⟩

theorem IsOpened.append (h : c.IsOpened t mid) (hdeclarations : operationDeclarations c s = .ok ds)
    (hspared : c.document.Spares s t.name) :
    c.IsOpened t (mid.append (ds.map (·.toDefinition))) := by
  obtain ⟨d, htype, hopens, hkind⟩ := h
  rcases Document.type?_append htype (ds.map (·.toDefinition)) with hkept | ⟨e, he, hkey, -⟩
  · exact ⟨d, hkept, hopens, hkind⟩
  exfalso
  obtain ⟨declaration, hd, rfl⟩ := List.mem_map.1 he
  have htarget : declaration.toDefinition.isTarget t.name = true := by
    rw [Sdl.isTarget_eq_of_key hkey]
    exact List.find?_some htype
  rcases of_isTarget_operations hdeclarations hd htarget with hname | ⟨hinput, hname⟩
  · exact hspared.1 hname
  · rcases hspared.2 with hapart | hnot
    · have hsame : declaration.toDefinition.kind = d.kind := congrArg Prod.fst hkey
      rw [hinput, hkind hapart] at hsame
      cases hsame
    · exact hnot hname

/-- **What comes behind the edit that opens a type leaves it opened**: the step of `IsOpened` along
`Drafts`. -/
theorem IsOpened.step (h : c.IsOpened t mid) (hf : c.Trails behind stem f)
    (hnamed : c.document.IsNamed) (htables : c.IsNamed) (hbehind : behind ⊆ c.tables)
    (hspared : ∀ s ∈ behind, s.name = stem → c.document.Spares s t.name)
    (hstep : Drafts location mid [f] next) : c.IsOpened t next := by
  cases hf with
  | edit he => exact h.edit (publishes_of_mem he) (edit_of_drafts hstep)
  | @operations s ds htable hname hdeclarations =>
    have hgenerates := Generates.operations (hbehind htable) hdeclarations
    rw [append_of_drafts (parse_declarations (hgenerates.isNamed hnamed htables)) hstep]
    exact h.append hdeclarations (hspared s htable hname)

section Drafts

variable (hrooted : c.Rooted) (ht : t ∈ c.tables)
  (hnodup : (Sdl.targetNames c.document.definitions).Nodup)

include hrooted ht hnodup

/-- What starts from a source that is read back has the types of tables as object types. -/
theorem exists_object_of_drafts {fs : List Fragment}
    (hback : Document.parse c.document.render = .ok c.document)
    (h : Drafts location .empty (c.seed :: fs) last) :
    ∃ d, last.type? t.name = some d ∧ d.kind = .object := by
  obtain ⟨start, hseed, hrest⟩ := Drafts.exists_between [c.seed] h
  have hstart := append_of_drafts hback hseed
  have htarget : (Definition.object t.definition).isTarget t.name = true :=
    (Sdl.Declaration.object t.definition).isTarget
  have hmem := Sdl.mem_append_empty hnodup
    (Sdl.Document.mem_declarations.1 (hrooted.mem_declarations ht).1) htarget
  have htype : start.type? t.name = some (.object t.definition) := by
    rw [hstart]
    exact Document.type?_eq_some (Sdl.targetNames_append_empty hnodup).1 hmem htarget
  obtain ⟨d, hlast, hkey⟩ := hrest.exists_type htype
  exact ⟨d, hlast, congrArg Prod.fst hkey⟩

variable (hback : c.document.IsApart → Document.parse c.document.render = .ok c.document)

include hback

/-- The edit that opens a type does so. -/
theorem isOpened_of_access {fs : List Fragment} (hfront : Drafts location .empty (c.seed :: fs) mid)
    (hedit : mid.edit (.addDirectives t.name none (annotations (Table.providersOf t.rules))) =
      .ok next) :
    c.IsOpened t next := by
  rcases Document.type?_edit hedit t.name with ⟨-, d, d', hfound, hone, hnext⟩ | ⟨hother, -⟩
  · refine ⟨d', hnext, ?_, fun hapart => ?_⟩
    · rw [Definition.directives_addDirectives (List.find?_some hfound) hone]
      exact Access.opensEach_addDirectives t.rules d.directives
    · obtain ⟨only, honly, hobject⟩ :=
        exists_object_of_drafts hrooted ht hnodup (hback hapart) hfront
      cases hfound.symm.trans honly
      exact (congrArg Prod.fst (Definition.key_edit hone)).trans hobject
  · exact absurd rfl hother

/-- A type without rules is there, for it is stripped. -/
theorem isOpened_of_nil {fs : List Fragment} {e : Sdl.Edit} (hnone : t.rules = [])
    (hstrip : Fragment.ofEdit c.publishedLocation e ∈ fs) (htype : e.type = t.name)
    (h : Drafts location .empty (c.seed :: fs) last) : c.IsOpened t last := by
  obtain ⟨d', hlast⟩ : ∃ d', last.type? t.name = some d' := by
    obtain ⟨front, rest, rfl⟩ := List.append_of_mem hstrip
    obtain ⟨mid, -, hbehind⟩ := Drafts.exists_between (c.seed :: front) h
    obtain ⟨next, hone, hrest⟩ := Drafts.exists_between [_] hbehind
    rcases Document.type?_edit (edit_of_drafts hone) t.name with
        ⟨-, -, d, -, -, hnext⟩ | ⟨hother, -⟩
    · obtain ⟨d', hlast, -⟩ := hrest.exists_type hnext
      exact ⟨d', hlast⟩
    · exact absurd htype hother
  refine ⟨d', hlast, by simp [OpensEach, hnone], fun hapart => ?_⟩
  obtain ⟨only, honly, hobject⟩ := exists_object_of_drafts hrooted ht hnodup (hback hapart) h
  cases hlast.symm.trans honly
  exact hobject

end Drafts

/-! ### Operations

A search for the extension of a root type finds the first one.  Documents of the table behind it
may bring the same extension again, and then it has the operation as well, since every document of
a table declares its operations in full.
-/

variable {root name : String} {action : Access.Action}

/-- The document `doc` extends the type `root` by an operation that is opened to those who may
perform `action` on `t`. -/
def Extends (root name : String) (t : Table) (action : Access.Action) (doc : Document) : Prop :=
  ∃ ops, doc.first? (extensionKey root) = some (Declaration.extension root ops).toDefinition ∧
    Opens t name action ops

/-- The fragment `f` edits a document, or provides what is generated for its place. -/
def Fits (c : Catalog) (location : String) (f : Fragment) : Prop :=
  (∃ e, f = .ofEdit location e) ∨ ∃ ds, c.Generates location ds ∧ (∀ d ∈ ds, d.IsNamed) ∧
    f = .ofText location (renderDocument ds)

theorem Trails.fits (hf : c.Trails c.tables stem f) (hnamed : c.document.IsNamed)
    (hnames : c.IsNamed) (hplace : c.publishedLocation = schemaLocation stem) :
    c.Fits c.publishedLocation f := by
  cases hf with
  | edit he => exact Or.inl ⟨_, rfl⟩
  | @operations s ds htable hname hdeclarations =>
    have hgenerates := Generates.operations htable hdeclarations
    rw [hname, ← hplace] at hgenerates
    exact Or.inr ⟨ds, hgenerates, hgenerates.isNamed hnamed hnames, rfl⟩

theorem exists_extension_of_key {d : Declaration} (h : d.toDefinition.key = extensionKey root) :
    ∃ ops, d = .extension root ops := by
  cases d with
  | extension type ops =>
    cases (Prod.mk.inj h).2
    exact ⟨ops, rfl⟩
  | _ => cases (Prod.mk.inj h).1

section Offers

variable (hnodup : c.tableNames.Nodup) (hnames : c.IsNamed) (ht : t ∈ c.tables)
  (hoffers : Offers t location root name action)

include hnodup hnames ht hoffers

/-- What is generated for the place of an operation extends its type by it, or leaves the type
alone. -/
theorem extends_append (hgenerates : c.Generates location ds) (doc : Document) :
    Extends root name t action (doc.append (ds.map (·.toDefinition))) ∨
      (∀ ops, .extension root ops ∉ ds) ∧ (doc.append (ds.map (·.toDefinition))).first?
        (extensionKey root) = doc.first? (extensionKey root) := by
  rcases doc.first?_append (k := extensionKey root) (ds.map (·.toDefinition)) with
    ⟨hsame, hnone⟩ | ⟨d, hd, hkey, hfound⟩
  · refine Or.inr ⟨fun ops hmem => ?_, hsame⟩
    exact hnone _ (List.mem_map_of_mem hmem) rfl
  · obtain ⟨declaration, hmem, rfl⟩ := List.mem_map.1 hd
    obtain ⟨ops, rfl⟩ := exists_extension_of_key hkey
    exact Or.inl ⟨ops, hfound, hgenerates.opens hnodup hnames ht hoffers hmem⟩

/-- **An operation stays as it is, whatever comes behind its document**, as long as it fits there
(`Catalog.Fits`). -/
theorem Extends.step (h : Extends root name t action mid) (hf : c.Fits location f)
    (hstep : Drafts location mid [f] next) : Extends root name t action next := by
  rcases hf with ⟨e, rfl⟩ | ⟨ds, hgenerates, hnamed, rfl⟩
  · obtain ⟨ops, hfirst, hopens⟩ := h
    exact ⟨ops, (Document.first?_extension_of_edit (edit_of_drafts hstep)).trans hfirst, hopens⟩
  · rw [append_of_drafts (parse_declarations hnamed) hstep]
    rcases extends_append hnodup hnames ht hoffers hgenerates mid with hnew | ⟨-, hsame⟩
    · exact hnew
    · obtain ⟨ops, hfirst, hopens⟩ := h
      exact ⟨ops, hsame.trans hfirst, hopens⟩

/-- **A document to which that of an operation is added, with nothing behind it that does not fit,
declares the operation.** -/
theorem extends_of_drafts {front rest : List Fragment} {doc : Document} {ops : List Operation}
    (hgenerates : c.Generates location ds) (hnamed : ∀ d ∈ ds, d.IsNamed)
    (hmem : .extension root ops ∈ ds) (hrest : ∀ f ∈ rest, c.Fits location f)
    (h : Drafts location doc (front ++ .ofText location (renderDocument ds) :: rest) last) :
    Extends root name t action last := by
  refine h.settle (fun mid next hstep => ?_) fun f hf mid next hstep hhere =>
    hhere.step hnodup hnames ht hoffers (hrest f hf) hstep
  rw [append_of_drafts (parse_declarations hnamed) hstep]
  rcases extends_append hnodup hnames ht hoffers hgenerates mid with hnew | ⟨hnot, -⟩
  · exact hnew
  · exact absurd hmem (hnot ops)

end Offers

end Catalog

/-! ### Files

What is said of a table by its rules is said by the document of its operations, and by the edits
of the published schema.  Each of them is found among the files by its location.
-/

variable {text : String} {scope : Scope} {first : Compilation} {t : Table}
  {before behind : List Table}

/-- A table is a type that is said to be one. -/
theorem Compilation.saysTable_of_mem {schemaName : String}
    (hfirst : (compile schemaName scope text).outcome = .ok first) (ht : t ∈ first.catalog.tables) :
    t.definition ∈ first.catalog.document.objects ∧
      Catalog.saysTable scope t.definition = true := by
  obtain ⟨document, -, hcompile⟩ := SchemaLoom.of_compile hfirst
  obtain ⟨hgather, -⟩ := of_compileDocument hcompile
  obtain ⟨-, hdocument, -, -⟩ := Catalog.rooted_of_gather hgather
  obtain ⟨known, hcollected, -, hsame⟩ := Catalog.exists_collected_of_gather hgather
  rw [hsame] at ht
  obtain ⟨t₀, ht₀, hkin⟩ := (Catalog.kin_classify known).tables t ht
  have hmem : t₀.definition ∈ known.tables.map (·.definition) := List.mem_map_of_mem ht₀
  rw [(Catalog.declares_of_collected hcollected).tables, ← hkin.definition, ← hdocument] at hmem
  exact List.mem_filter.1 hmem

section Files

variable (hgives : GivesNames "schema.graphql" scope text)
  (hfirst : (compile "schema.graphql" scope text).outcome = .ok first)

include hgives hfirst

/-- **The type of a table is published, opened to the callers of its rules.** -/
theorem Compilation.isOpened (hnodup : (Sdl.targetNames first.catalog.document.definitions).Nodup)
    (htables : first.catalog.tables = before ++ t :: behind)
    (hspared : ∀ s ∈ behind, s.name = "schema" → first.catalog.document.Spares s t.name)
    {body : String}
    (hbody : assembleBody "schema/schema.graphql" none
      (addressedTo "schema/schema.graphql" first.fragments) = .ok body) :
    ∃ published : Document, body = published.render ∧ published.keys.Nodup ∧
      first.catalog.IsOpened t published := by
  obtain ⟨hnamed, hnames⟩ := Compilation.isNamed hgives hfirst
  obtain ⟨hrooted, -, hemit⟩ := Compilation.of_compile hfirst
  have hpublished : "schema/schema.graphql" = first.catalog.publishedLocation :=
    (Compilation.publishedLocation_eq hfirst).symm
  have ht : t ∈ first.catalog.tables := by simp [htables]
  obtain ⟨hobject, hsaid⟩ := Compilation.saysTable_of_mem hfirst ht
  obtain ⟨e, he, htype⟩ := Compilation.exists_stripEdit hfirst hobject hsaid
  have hstrip : Fragment.ofEdit first.catalog.publishedLocation e ∈ first.catalog.drafts :=
    List.mem_append_right _ (List.mem_map_of_mem he)
  rw [hpublished, Catalog.addressedTo_emit_eq hemit, if_neg (List.ne_nil_of_mem hstrip),
    ← hpublished] at hbody
  have hback : first.catalog.document.IsApart →
      Document.parse first.catalog.document.render = .ok first.catalog.document :=
    Document.parse_render (Compilation.document_eq hfirst)
  have hmedium : medium "schema/schema.graphql" = .sdl := by decide
  cases makes_of_assembleBody hbody with
  | text htext => exact absurd (hmedium.symm.trans htext) (by decide)
  | structured hstructured => exact absurd (hmedium.symm.trans hstructured) (by decide)
  | @sdl start last _ hstart hdrafts =>
    cases hstart
    refine ⟨last, rfl, hdrafts.nodup_keys List.nodup_nil, ?_⟩
    -- Without rules there is nothing to open; else the drafts are cut at the edit that opens the
    -- type.
    by_cases hnone : t.rules = []
    · exact Catalog.isOpened_of_nil hrooted ht hnodup hback hnone hstrip htype hdrafts
    have hplace : first.catalog.publishedLocation = schemaLocation "schema" := hpublished.symm
    obtain ⟨front, rest, hsplit, htrails⟩ :=
      Catalog.exists_drafts hplace (by decide) (by decide) htables hnone
    rw [hsplit] at hdrafts
    obtain ⟨mid, hfront, hbehind⟩ := Drafts.exists_between (first.catalog.seed :: front) hdrafts
    obtain ⟨next, hone, hrest⟩ := Drafts.exists_between [_] hbehind
    refine hrest.keep (fun f hf mid next hstep hhere => ?_)
      (Catalog.isOpened_of_access hrooted ht hnodup hback hfront (edit_of_drafts hone))
    exact hhere.step (htrails f hf) hnamed hnames (by simp [htables]) hspared hstep

/-- Behind whatever is first at the place of a generated document, there are edits and other such
documents. -/
theorem Compilation.fits_of_split {location : String} {ds : List Declaration}
    (hgenerates : first.catalog.Generates location ds) {front rest : List Fragment} {f : Fragment}
    (hsplit : addressedTo location first.fragments = front ++ f :: rest) :
    ∀ g ∈ rest, first.catalog.Fits location g := by
  obtain ⟨hnamed, hnames⟩ := Compilation.isNamed hgives hfirst
  obtain ⟨-, -, hemit⟩ := Compilation.of_compile hfirst
  have hplace : first.catalog.publishedLocation = schemaLocation "schema" :=
    Compilation.publishedLocation_eq hfirst
  intro g hg
  by_cases hhere : location = first.catalog.publishedLocation
  · have hdraft : g ∈ first.catalog.drafts := by
      rw [hhere, Catalog.addressedTo_emit_eq hemit] at hsplit
      split at hsplit
      · simp at hsplit
      · -- Whatever comes behind another fragment comes behind the source.
        cases front with
        | nil =>
          rw [(List.cons.inj hsplit).2]
          exact hg
        | cons seed front =>
          rw [(List.cons.inj hsplit).2]
          simp [hg]
    rw [hhere]
    have htrails := Catalog.trails_of_mem_drafts hplace (by decide) (by decide) hdraft
    exact htrails.fits hnamed hnames hplace
  · obtain ⟨name, rfl, -⟩ := hgenerates.exists_name
    have hother : "schema.graphql" ≠ name := by
      rintro rfl
      exact hhere hplace.symm
    obtain ⟨others, hothers, hall, hsame⟩ := Compilation.exists_generates hfirst hgives hother g
      (by simp [hsplit, hg])
    exact Or.inr ⟨others, hothers, hall, hsame⟩

/-- **An operation is declared at its place, opened to those who may perform its action.** -/
theorem Compilation.extends_of_offers (ht : t ∈ first.catalog.tables) {location root name : String}
    {action : Access.Action} (hoffers : Offers t location root name action)
    {existing : Option String} {body : String} (hbody : assembleBody location existing
      (addressedTo location first.fragments) = .ok body) :
    ∃ doc : Document, body = doc.render ∧ Catalog.Extends root name t action doc := by
  obtain ⟨hnamed, hnames⟩ := Compilation.isNamed hgives hfirst
  obtain ⟨hrooted, hname, hemit⟩ := Compilation.of_compile hfirst
  obtain ⟨ds, ops, hgenerates, hmem⟩ := Catalog.exists_generates_of_offers hemit ht hoffers
  have hown : ∀ d ∈ ds, d.IsNamed := hgenerates.isNamed hnamed hnames
  have hhere :
      Fragment.ofText location (renderDocument ds) ∈ addressedTo location first.fragments :=
    List.mem_filter.2 ⟨Catalog.mem_of_generates hemit hgenerates, decide_eq_true rfl⟩
  obtain ⟨front, rest, hsplit⟩ := List.append_of_mem hhere
  have hrest := Compilation.fits_of_split hgives hfirst hgenerates hsplit
  have hmedium : medium location = .sdl :=
    Catalog.medium_of_documentLocations hnames hgenerates.mem_documentLocations
  cases makes_of_assembleBody hbody with
  | text htext => exact absurd (hmedium.symm.trans htext) (by decide)
  | structured hstructured => exact absurd (hmedium.symm.trans hstructured) (by decide)
  | @sdl start last _ hstart hdrafts =>
    rw [hsplit] at hdrafts
    exact ⟨last, rfl, Catalog.extends_of_drafts hrooted.tableNames hnames ht hoffers hgenerates hown
      hmem hrest hdrafts⟩

/-- Every place that is asked for is put together from the fragments of the one compilation; the
published schema starts from nothing. -/
theorem exists_file_of_files {former : Option (FileTree × Path)} {files : List File}
    (hfiles : (filesOf "schema.graphql" scope text former).outcome = .ok files)
    (ht : t ∈ first.catalog.tables) {f : Fragment} (hf : f ∈ first.fragments) :
    ∃ file ∈ files, file.location = f.location ∧ ∃ existing : Option String,
      (f.location = "schema/schema.graphql" → existing = none) ∧
      assembleBody f.location existing (addressedTo f.location first.fragments) =
        .ok file.body := by
  unfold filesOf at hfiles
  simp only [Report.outcome_bind, Report.outcome_mapError, Report.outcome_lift] at hfiles
  obtain ⟨fragments, hpublish, hfiles⟩ := Outcome.of_bind_eq_ok hfiles
  obtain ⟨found, hformer, hfiles⟩ := Outcome.of_bind_eq_ok hfiles
  replace hpublish := Outcome.of_mapError_eq_ok hpublish
  replace hfiles := Outcome.of_mapError_eq_ok hfiles
  rw [outcome_publish hfirst hgives ⟨_, Compilation.saysTable_of_mem hfirst ht⟩] at hpublish
  cases hpublish
  obtain ⟨file, hfile, hlocation, hbody⟩ := exists_file hfiles (mem_addressedTo hf).1
  refine ⟨file, hfile, hlocation, _, fun hpublished => ?_, hbody⟩
  refine lookup_formerFiles hformer fun hasked => ?_
  exact of_decide_eq_true (List.mem_filter.1 hasked).2 hpublished

end Files

/-- The text `body` extends the type `root` by an operation with directives of the kind `P`. -/
def DeclaresOperation (body root name : String) (P : List Sdl.Directive → Prop) : Prop :=
  ∃ (doc : Document) (ext : Sdl.ObjectType), body = doc.render ∧
    doc.first? (extensionKey root) = some (.objectExtension ext) ∧
    (∃ f ∈ ext.fields, f.name = name) ∧ ∀ f ∈ ext.fields, f.name = name → P f.directives

/-- **Every operation of a table is declared with the annotations of the rules about its action,
each once and no others, and the published type has the annotations of all rules, each exactly
once.**  So what opens an operation opens its type.  The names that directives give have to be
names, for they are put into texts as they are.  The operations of a table `schema` have the place
of the published schema, so they may replace a type that is named like their connection, if its
table is in front of them. -/
theorem annotated_by_rules {former : Option (FileTree × Path)} {files : List File}
    (hgives : GivesNames "schema.graphql" scope text)
    (hfirst : (compile "schema.graphql" scope text).outcome = .ok first)
    (hnodup : (Sdl.targetNames first.catalog.document.definitions).Nodup)
    (hfiles : (filesOf "schema.graphql" scope text former).outcome = .ok files)
    (htables : first.catalog.tables = before ++ t :: behind)
    (hspared : ∀ s ∈ behind, s.name = "schema" → first.catalog.document.Spares s t.name) :
    ∃ file ∈ files, file.location = "schema/schema.graphql" ∧
      ∃ (published : Document) (type : Definition), file.body = published.render ∧
        published.type? t.name = some type ∧
        (first.catalog.document.IsApart →
          ∃ body, type = .object body ∧ published.objectsNamed t.name = [body]) ∧
        OpensEach t.rules type.directives ∧
        ∀ location root name action, Offers t location root name action →
          ∃ file ∈ files, file.location = location ∧ DeclaresOperation file.body root name fun ds =>
            OpensOnly (t.rulesFor action) ds ∧ ds ⊆ type.directives := by
  have ht : t ∈ first.catalog.tables := by simp [htables]
  obtain ⟨-, hname, hemit⟩ := Compilation.of_compile hfirst
  obtain ⟨e, -, hstrip⟩ :=
    Compilation.exists_strip hfirst ⟨_, Compilation.saysTable_of_mem hfirst ht⟩
  obtain ⟨file, hfile, hlocation, existing, hnone, hbody⟩ :=
    exists_file_of_files hgives hfirst hfiles ht hstrip
  rw [hnone rfl] at hbody
  obtain ⟨published, hrender, hkeys, type, htype, hopens, hkind⟩ :=
    Compilation.isOpened hgives hfirst hnodup htables hspared hbody
  refine ⟨file, hfile, hlocation, published, type, hrender, htype, fun hapart => ?_, hopens, ?_⟩
  · obtain ⟨body, rfl⟩ : ∃ body, type = .object body := by
      cases type with
      | object body => exact ⟨body, rfl⟩
      | _ => cases hkind hapart
    exact ⟨body, rfl, Document.objectsNamed_of_type? hkeys htype⟩
  · intro location root name action hoffers
    obtain ⟨ds, ops, hgenerates, -⟩ := Catalog.exists_generates_of_offers hemit ht hoffers
    obtain ⟨file, hfile, hlocation, existing, -, hbody⟩ :=
      exists_file_of_files hgives hfirst hfiles ht (Catalog.mem_of_generates hemit hgenerates)
    obtain ⟨doc, hrender, ops, hextension, ⟨o, ho, hown⟩, hall⟩ :=
      Compilation.extends_of_offers hgives hfirst ht hoffers hbody
    refine ⟨file, hfile, hlocation, doc, _, hrender, hextension, ⟨o.toField, ?_, hown⟩, ?_⟩
    · exact List.mem_map_of_mem ho
    · rintro f hf rfl
      obtain ⟨other, hother, rfl⟩ := List.mem_map.1 hf
      have hdirectives : other.toField.directives = (openedTo t action).map Sdl.Reader.bare :=
        congrArg (List.map Sdl.Reader.bare) (hall other hother rfl)
      have honly : OpensOnly (t.rulesFor action) other.toField.directives :=
        hdirectives ▸ opensOnly_openedTo t action
      exact ⟨honly, honly.subset hopens (List.filter_subset_self _)⟩

/-! ### A table in the place of the published schema -/

/-- Two tables.  The second has the place of the published schema, and the first the name of its
connection. -/
def linkedSchema : String :=
  "type ModelschemaConnection @model @auth(provider: IAM) \x7b id: ID! \x7d
  type schema @model @auth(actions: [read], provider: API_KEY) @auth(provider: IAM)
    @key(name: \"ByTopic\", fields: [\"topic\"], queryField: \"schemasByTopic\") \x7b
    id: ID!
    topic: String
  \x7d"

/-- What is known of the two tables without looking at generated documents. -/
theorem linkedSchema_runs : Outcome.Holds (Document.parse linkedSchema) fun source =>
    (source.IsApart ∧ (Sdl.targetNames source.definitions).Nodup) ∧
      Outcome.Holds (Catalog.collected source "schema.graphql" none) (·.GivesNames) ∧
      Outcome.Holds (compileDocument "schema.graphql" none source).outcome fun first =>
        first.catalog.tables.map (fun t => (t.name, t.rules.map (·.provider)))
            = [("ModelschemaConnection", [.iam]), ("schema", [.apiKey, .iam])] ∧
          Outcome.Holds first.catalog.common fun common => first.Joins common fun published =>
            (published.objectsNamed "ModelschemaConnection").map (·.directives.length) = [0] := by
  set_option maxRecDepth 2000 in refine Document.holds_parse rfl ?_
  decide +kernel

/-- The two tables are built, and the type of the first is published without annotations. -/
theorem linkedSchema_files : ∃ (first : Compilation) (files : List File) (t s : Table),
    GivesNames "schema.graphql" none linkedSchema ∧
      (compile "schema.graphql" none linkedSchema).outcome = .ok first ∧
      (Sdl.targetNames first.catalog.document.definitions).Nodup ∧
      (filesOf "schema.graphql" none linkedSchema none).outcome = .ok files ∧
      first.catalog.tables = [t] ++ s :: [] ∧
      (t.name = "ModelschemaConnection" ∧ t.rules ≠ []) ∧
      (s.name = "schema" ∧ s.rules.map (·.provider) = [.apiKey, .iam]) ∧
      ∃ file ∈ files, file.location = "schema/schema.graphql" ∧ ∃ published : Document,
        file.body = published.render ∧
        (published.objectsNamed "ModelschemaConnection").map (·.directives.length) = [0] := by
  obtain ⟨source, hparse, ⟨hapart, hnodup⟩, ⟨before, hcollected, hnames⟩, first, hcompile, htables,
    common, hcommon, hjoins⟩ := linkedSchema_runs
  have hfirst := (outcome_compile_of_parse hparse).trans hcompile
  have hgives := givesNames_of_collected hparse hcollected hnames
  obtain ⟨t, s, hboth⟩ : ∃ t s, first.catalog.tables = [t, s] :=
    List.length_eq_two.1 (by simpa using congrArg List.length htables)
  rw [hboth] at htables
  simp only [List.map_cons, List.map_nil, List.cons.injEq, Prod.mk.injEq, and_true] at htables
  obtain ⟨⟨hfirstname, hfirstrules⟩, hsecond⟩ := htables
  have hdocument := Compilation.document_eq hfirst
  rw [hparse] at hdocument
  cases hdocument
  obtain ⟨hnamed, hall⟩ := Compilation.isNamed hgives hfirst
  have hsome : first.catalog.tables ≠ [] := by simp [hboth]
  have hown : ∀ ds ∈ common, ∀ d ∈ ds, d.IsNamed := by
    intro ds hds
    obtain ⟨location, hgenerates⟩ := Catalog.generates_of_common hcommon hsome hds
    exact hgenerates.isNamed hnamed hall
  have htable : ∃ body ∈ first.catalog.document.objects, Catalog.saysTable none body = true :=
    ⟨t.definition, Compilation.saysTable_of_mem hfirst (by simp [hboth])⟩
  obtain ⟨files, hfiles, htold⟩ :=
    hjoins.exists_files hfirst (by decide) (Document.parse_render hparse hapart)
    (fun _ _ => idle_of_generates hgives hfirst) hown htable
  obtain ⟨-, published, hdoc, hlost⟩ := hjoins
  rw [Compilation.publishedLocation_eq hfirst] at hdoc
  obtain ⟨file, hfile, hlocation, hbody⟩ :=
    htold _ (Compilation.schema_mem_locations hfirst htable).1
    (by decide) published hdoc
  refine ⟨first, files, t, s, hgives, hfirst, hnodup, hfiles, hboth, ⟨hfirstname, ?_⟩, hsecond,
    file, hfile, hlocation, published, hbody, hlost⟩
  rintro hnone
  rw [hnone] at hfirstrules
  cases hfirstrules

/-- The operations of a table are annotated like its rules say, also in the place of the published
schema. -/
theorem linkedSchema_annotated : ∃ (first : Compilation) (files : List File) (s : Table),
    (compile "schema.graphql" none linkedSchema).outcome = .ok first ∧
      (filesOf "schema.graphql" none linkedSchema none).outcome = .ok files ∧
      s ∈ first.catalog.tables ∧ s.name = "schema" ∧ s.rules.map (·.provider) = [.apiKey, .iam] ∧
      ∃ file ∈ files, file.location = "schema/schema.graphql" ∧
        ∃ (published : Document) (type : Definition), file.body = published.render ∧
          published.type? s.name = some type ∧ OpensEach s.rules type.directives ∧
          ∀ location root name action, Offers s location root name action →
            ∃ file ∈ files, file.location = location ∧
              DeclaresOperation file.body root name fun ds =>
              OpensOnly (s.rulesFor action) ds ∧ ds ⊆ type.directives := by
  obtain ⟨first, files, t, s, hgives, hfirst, hnodup, hfiles, htables, -, ⟨hname, hrules⟩, -⟩ :=
    linkedSchema_files
  obtain ⟨file, hfile, hlocation, published, type, hbody, htype, -, hopens, hall⟩ :=
    annotated_by_rules hgives hfirst hnodup hfiles htables (by simp)
  exact ⟨first, files, s, hfirst, hfiles, by simp [htables], hname, hrules, file, hfile, hlocation,
    published, type, hbody, htype, hopens, hall⟩

/-! ### A key that is spliced into its query -/

/-- A table without rules, and a query by a key that is no name. -/
def splicedSchema : String :=
  "type Post @model @key(name: \"ById\", queryField: \"byId\",
    fields: [\"id: ID): ModelPostConnection @aws_iam x(id\"]) \x7b id: ID! \x7d"

/-- The fields of the first extension of a type. -/
def Sdl.Document.extended (doc : Document) (name : String) : List Sdl.Field :=
  match doc.first? (extensionKey name) with
  | some (.objectExtension body) => body.fields
  | _ => []

theorem Sdl.Document.first?_of_mem_extended {doc : Document} {name : String} {f : Sdl.Field}
    (hf : f ∈ doc.extended name) : ∃ ext : Sdl.ObjectType,
      doc.first? (extensionKey name) = some (.objectExtension ext) ∧ f ∈ ext.fields := by
  unfold extended at hf
  split at hf
  next ext hfirst => exact ⟨ext, hfirst, hf⟩
  · cases hf

/-- What is known of the table without looking at generated documents once they are put together. -/
theorem splicedSchema_runs : Outcome.Holds (Document.parse splicedSchema) fun source =>
    (source.IsApart ∧ (Sdl.targetNames source.definitions).Nodup) ∧
      Outcome.Holds (compileDocument "schema.graphql" none source).outcome fun first =>
        first.catalog.tables.map (fun t => (t.name, t.rules.length, t.queryKeys.map queryName))
            = [("Post", 0, ["byId"])] ∧
          first.catalog.IsIdle none ∧ Outcome.Holds first.catalog.common fun common =>
            first.Joins common (fun _ => True) ∧
              Outcome.Holds
                (documentKnown (first.catalog.knownTexts common) "schema/Post.byId.graphql"
                  (addressedTo "schema/Post.byId.graphql" first.fragments)) fun doc =>
                (doc.extended "Query").map (fun f => (f.name, f.directives.map (·.name)))
                  = [("byId", ["aws_iam"]), ("x", [])] := by
  set_option maxRecDepth 2000 in refine Document.holds_parse rfl ?_
  decide +kernel

/-- The table is built, and the query by its key is declared with an annotation. -/
theorem splicedSchema_files : ∃ (first : Compilation) (files : List File) (t : Table),
    (compile "schema.graphql" none splicedSchema).outcome = .ok first ∧
      (Sdl.targetNames first.catalog.document.definitions).Nodup ∧
      (filesOf "schema.graphql" none splicedSchema none).outcome = .ok files ∧
      t ∈ first.catalog.tables ∧ t.rules = [] ∧
      Offers t "schema/Post.byId.graphql" "Query" "byId" .read ∧
      ∃ file ∈ files, file.location = "schema/Post.byId.graphql" ∧ ∃ doc : Document,
        file.body = doc.render ∧
        (doc.extended "Query").map (fun f => (f.name, f.directives.map (·.name)))
          = [("byId", ["aws_iam"]), ("x", [])] := by
  obtain ⟨source, hparse, ⟨hapart, hnodup⟩, first, hcompile, htables, hidle, common, hcommon,
    hjoins, doc, hdoc, hforged⟩ := splicedSchema_runs
  have hfirst := (outcome_compile_of_parse hparse).trans hcompile
  have hdocument := Compilation.document_eq hfirst
  rw [hparse] at hdocument
  cases hdocument
  obtain ⟨t, hone⟩ : ∃ t, first.catalog.tables = [t] :=
    List.length_eq_one_iff.1 (by simpa using congrArg List.length htables)
  have ht : t ∈ first.catalog.tables := by simp [hone]
  rw [hone] at htables
  simp only [List.map_cons, List.map_nil, List.cons.injEq, Prod.mk.injEq, and_true,
    List.length_eq_zero_iff] at htables
  obtain ⟨hname, hrules, hqueries⟩ := htables
  obtain ⟨key, hkey, hquery⟩ := List.exists_of_mem_map (hqueries ▸ List.mem_singleton_self "byId")
  have hoffers := Offers.query (t := t) hkey
  rw [hquery, hname] at hoffers
  obtain ⟨dss, hsame, hnamed⟩ := hidle.1
  cases hcommon.symm.trans hsame
  obtain ⟨files, hfiles, htold⟩ :=
    hjoins.exists_files hfirst (by decide) (Document.parse_render hparse hapart)
    (fun _ _ => hidle.of_generates) hnamed ⟨_, Compilation.saysTable_of_mem hfirst ht⟩
  obtain ⟨-, -, hemit⟩ := Compilation.of_compile hfirst
  obtain ⟨ds, ops, hgenerates, -⟩ := Catalog.exists_generates_of_offers hemit ht hoffers
  have hlocation : "schema/Post.byId.graphql" ∈ locations first.fragments :=
    (mem_addressedTo (Catalog.mem_of_generates hemit hgenerates)).1
  obtain ⟨file, hfile, hhere, hbody⟩ := htold _ hlocation (by decide) doc hdoc
  exact ⟨first, files, t, hfirst, hnodup, hfiles, ht, hrules, hoffers, file, hfile, hhere, doc,
    hbody, hforged⟩

/-- **Names make annotations.**  A table that has the place of the published schema takes the
annotations of a type that is named like its connection, and a key that is no name opens its query
to callers that no rule is about. -/
theorem not_annotated_by_rules :
    (∃ (first : Compilation) (files : List File) (t : Table),
      (compile "schema.graphql" none linkedSchema).outcome = .ok first ∧
        (Sdl.targetNames first.catalog.document.definitions).Nodup ∧
        (filesOf "schema.graphql" none linkedSchema none).outcome = .ok files ∧
        t ∈ first.catalog.tables ∧
        ∃ file ∈ files, file.location = "schema/schema.graphql" ∧
          ∃ (published : Document) (body : Sdl.ObjectType), file.body = published.render ∧
            published.objectsNamed t.name = [body] ∧ ¬ OpensEach t.rules body.directives) ∧
    ∃ (first : Compilation) (files : List File) (t : Table) (location name : String),
      (compile "schema.graphql" none splicedSchema).outcome = .ok first ∧
        (Sdl.targetNames first.catalog.document.definitions).Nodup ∧
        (filesOf "schema.graphql" none splicedSchema none).outcome = .ok files ∧
        t ∈ first.catalog.tables ∧ Offers t location "Query" name .read ∧
        ∃ file ∈ files, file.location = location ∧
          ∃ (doc : Document) (ext : Sdl.ObjectType), file.body = doc.render ∧
            doc.first? (extensionKey "Query") = some (.objectExtension ext) ∧
            ∃ f ∈ ext.fields, f.name = name ∧ ¬ OpensOnly (t.rulesFor .read) f.directives := by
  constructor
  · obtain ⟨first, files, t, s, -, hfirst, hnodup, hfiles, htables, ⟨hname, hsome⟩, -, file, hfile,
      hlocation, published, hbody, hlost⟩ := linkedSchema_files
    obtain ⟨body, honly⟩ : ∃ body, published.objectsNamed "ModelschemaConnection" = [body] :=
      List.length_eq_one_iff.1 (by simpa using congrArg List.length hlost)
    rw [honly] at hlost
    refine ⟨first, files, t, hfirst, hnodup, hfiles, by simp [htables], file, hfile, hlocation,
      published, body, hbody, hname ▸ honly, fun hopens => ?_⟩
    obtain ⟨r, hr⟩ := List.exists_mem_of_ne_nil _ hsome
    have hnone : body.directives = [] := by simpa using hlost
    have heach := hopens r hr
    rw [hnone] at heach
    cases heach
  · obtain ⟨first, files, t, hfirst, hnodup, hfiles, ht, hnone, hoffers, file, hfile, hlocation,
      doc, hbody, hforged⟩ := splicedSchema_files
    obtain ⟨f, hf, hpair⟩ := List.exists_of_mem_map (hforged ▸ List.mem_cons_self)
    obtain ⟨ext, hext, hmem⟩ := Document.first?_of_mem_extended hf
    obtain ⟨hname, hdirectives⟩ := Prod.mk.inj hpair
    refine ⟨first, files, t, _, _, hfirst, hnodup, hfiles, ht, hoffers, file, hfile, hlocation, doc,
      ext, hbody, hext, f, hmem, hname, fun honly => ?_⟩
    obtain ⟨d, hd, -⟩ := List.exists_of_mem_map (hdirectives ▸ List.mem_cons_self)
    obtain ⟨r, hr, -⟩ := (honly.2 d).1 hd
    rw [Table.rulesFor, hnone] at hr
    cases hr

end SchemaLoom
