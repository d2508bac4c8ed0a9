/-
Root types in a build directory.

A build makes the published schema anew, so that has a root type exactly if the source of this
build declares it.  What is shared is added to instead: it has a root type if the source of this
build or of any build before did not declare it.  Both have it once a source declares what a
former one left to the shared declarations.

The argument is about what is shared after any number of builds (`History`): it is made of
generated declarations, and so every build finds in the file what the build before put into it
(`Shares`).  One build is `Builds.step`, and the induction over a history is `History.shares`.

Each source has to have a table, or else there are no shared declarations to speak of; and each
has to be read back from what it is printed as, since the published schema is printed from it.
-/
import SchemaLoom.Proofs.Sdl.Restoring.Document
import SchemaLoom.Proofs.Workspace.Success

namespace SchemaLoom

open Artifact Surface
open Sdl (Document)

namespace Workspace

variable {folder : Path} {schemaName : String} {source : Document} {earlier : List Document}
  {j : Job} {t after : FileTree} {fragments : List Fragment} {existing : List (String × String)}
  {files : List File} {written : List Path} {location : String}

theorem lineFeeds_eq_self {cs : List Char} (h : ∀ c ∈ cs, c ≠ '\r') : lineFeeds cs = cs := by
  fun_induction lineFeeds cs with
  | case1 cs _ => exact absurd rfl (h '\r' List.mem_cons_self)
  | case2 cs _ _ => exact absurd rfl (h '\r' List.mem_cons_self)
  | case3 c cs _ _ ih => rw [ih fun d hd => h d (List.mem_cons_of_mem c hd)]
  | case4 => rfl

/-- A text without carriage returns is read as it was written. -/
theorem reread_of_ne_return {text : String} (h : ∀ c ∈ text.toList, c ≠ '\r') :
    reread text = text := by
  rw [reread, lineFeeds_eq_self h, String.ofList_toList]

/-! ### Builds

In a `History` any number of builds go into one folder, and other things may happen in between
that leave the shared file alone.  What the builds keep is said about this file (`Shares`).
-/

/-- The job builds a source that has a table into `folder`, and replaces what it finds there. -/
structure Builds (folder : Path) (schemaName : String) (source : Document) (j : Job)
    (t : FileTree) :
    Prop where
  folder : j.buildPath = folder
  name : j.schemaPath.name = schemaName
  replaces : j.config.appendOnly = false
  reads : ∃ text, t.readText j.schemaPath = .ok text ∧ Document.parse text = .ok source
  /-- The source is read back from what it is printed as. -/
  readsBack : Document.parse source.render = .ok source
  table : ∃ body ∈ source.objects, Catalog.saysTable j.config.types body = true
  once : ∀ root ∈ rootNames, (source.objectsNamed root).length ≤ 1
  givesNames : j.GivesNames t
  isProper : j.base.IsProper
  isClosed : t.IsClosed
  succeeds : ∃ written, (j.build t).report.outcome = .ok written

/-- Builds of sources into a folder, of which the last one stands first, where nothing else touches
what is shared. -/
inductive History (folder : Path) (schemaName : String) : List Document → FileTree → Prop where
  | start {t : FileTree} (hnone : existingFile t folder sharedLocation = .ok none) :
    History folder schemaName [] t
  | change {sources : List Document} {t t' : FileTree}
      (hearlier : History folder schemaName sources t)
    (hsame : existingFile t' folder sharedLocation = existingFile t folder sharedLocation) :
    History folder schemaName sources t'
  | build {sources : List Document} {source : Document} {j : Job} {t : FileTree}
    (hearlier : History folder schemaName sources t)
    (hbuilds : Builds folder schemaName source j t) :
    History folder schemaName (source :: sources) (j.build t).tree

/-- What is shared is made of generated declarations, among them the root types that one of
`sources` does not declare. -/
def Shares (folder : Path) (sources : List Document) (t : FileTree) : Prop :=
  ∃ found start, existingFile t folder sharedLocation = .ok found ∧
    startDocument sharedLocation (found.map (·.2)) = .ok start ∧ IsGenerated start ∧
    ∀ root ∈ rootNames, rootKey root ∈ start.keys ↔ ∃ d ∈ sources, root ∉ d.namesOf [.object]

/-! ### One build -/

/-- **A build that replaces files leaves at a location what it put together**, if all fragments of
the location may be replaced. -/
theorem Job.Built.existingFile_eq (h : j.Built t after fragments existing files written)
    (hreplaces : j.config.appendOnly = false) (hmem : location ∈ locations fragments)
    (hreplaceable : ∀ f ∈ addressedTo location fragments, f.replaceable = true) :
    ∃ body, assembleBody location (existing.lookup location) (addressedTo location fragments) =
      .ok body ∧
      existingFile after j.buildPath location = .ok (some (location, reread body)) := by
  obtain ⟨f, hf, rfl, hbody⟩ := exists_file h.assembles hmem
  refine ⟨f.body, hbody, ?_⟩
  cases h.settled f hf with
  | written hplace htext => exact existingFile_of_file hplace htext rfl
  | kept _ _ _ hkeep _ =>
    have hall := (of_mem_assemble h.assembles hf).2.2
    rw [List.all_eq_true.2 hreplaceable] at hall
    rw [hreplaces, hall] at hkeep
    cases hkeep

/-- What a build makes of the two files that may declare root types. -/
theorem Builds.step (h : Builds folder schemaName source j t) (hother : schemaName ≠ "root.graphql")
    (hshares : Shares folder earlier t) :
    ∃ published shared : Document,
      existingFile (j.build t).tree folder ("schema/" ++ schemaName)
        = .ok (some ("schema/" ++ schemaName, reread published.render)) ∧
      existingFile (j.build t).tree folder sharedLocation
        = .ok (some (sharedLocation, shared.render)) ∧
      IsGenerated shared ∧
      ∀ root ∈ rootNames,
        (published.objectsNamed root).length = (if root ∈ source.namesOf [.object] then 1 else 0) ∧
        (rootKey root ∈ shared.keys ↔
          root ∉ source.namesOf [.object] ∨ ∃ d ∈ earlier, root ∉ d.namesOf [.object]) := by
  obtain rfl := h.folder
  obtain rfl := h.name
  obtain ⟨text, htext, hparse⟩ := h.reads
  obtain ⟨written, hbuild⟩ := h.succeeds
  obtain ⟨fragments, existing, files, hbuilt⟩ :=
    Job.built_of_build h.isProper h.isClosed h.givesNames hbuild
  obtain ⟨text', htext', hpublish⟩ := hbuilt.compiles
  rw [htext] at htext'
  cases htext'
  have hgives := h.givesNames text htext
  obtain ⟨first, hfirst, rfl, rfl⟩ := exists_first_of_publish hpublish hgives hparse h.table
  obtain ⟨hpmem, hsmem⟩ := Compilation.schema_mem_locations hfirst h.table
  have hapart : sharedLocation ≠ j.published := fun hsame =>
    hother ((String.append_right_inj "schema/").1
      (show "schema/" ++ "root.graphql" = "schema/" ++ j.schemaPath.name from hsame)).symm
  obtain ⟨publishedBody, hpbody, hpublished⟩ := hbuilt.existingFile_eq h.replaces
    hpmem (Compilation.replaceable_of_schema hfirst hgives _)
  obtain ⟨sharedBody, hsbody, hshared⟩ := hbuilt.existingFile_eq h.replaces hsmem
    (Compilation.replaceable_of_schema hfirst hgives "root.graphql")
  rw [lookup_existingFiles_of_not_mem hbuilt.found (by simp [Job.merged, Job.published])]
    at hpbody
  obtain ⟨found, start, hfound, hstart, hgenerated, hroots⟩ := hshares
  -- The published schema is made anew, while the shared file starts from what was found.
  have hlookup : existing.lookup sharedLocation = found.map (·.2) := by
    have hmerged : sharedLocation ∈ j.merged first.fragments :=
      List.mem_filter.2 ⟨hsmem, by simpa using hapart⟩
    exact lookup_existingFiles_of_mem hbuilt.found hmerged hfound
  rw [hlookup] at hsbody
  obtain ⟨published, rfl, honce⟩ := Compilation.published_roots hfirst hgives h.readsBack h.table
    h.once hother hpbody
  obtain ⟨shared, rfl, hgenerated', hkeys⟩ := Compilation.shared_roots hfirst hgives h.table hother
    hstart hgenerated hsbody
  rw [reread_of_ne_return hgenerated'.parse_render.2] at hshared
  refine ⟨published, shared, hpublished, hshared, hgenerated',
    fun root hroot => ⟨honce root hroot, ?_⟩⟩
  rw [hkeys root hroot, hroots root hroot, or_comm]

/-- **What is shared after builds has the root types that one of their sources did not declare**
(`Shares`), by induction on the builds. -/
theorem History.shares (hother : schemaName ≠ "root.graphql")
    (h : History folder schemaName earlier t) : Shares folder earlier t := by
  induction h with
  | start hnone =>
    refine ⟨none, .empty, hnone, rfl, .empty, fun root _ => ?_⟩
    simp [Document.keys, Document.empty]
  | change _ hsame ih =>
    obtain ⟨found, start, hfound, hrest⟩ := ih
    exact ⟨found, start, hsame.trans hfound, hrest⟩
  | build _ hbuilds ih =>
    obtain ⟨published, shared, -, hshared, hgenerated, hroots⟩ := hbuilds.step hother ih
    refine ⟨_, shared, hshared, ?_, hgenerated, fun root hroot => ?_⟩
    · show parseSchema sharedLocation shared.render = .ok shared
      rw [parseSchema, hgenerated.parse_render.1]
      rfl
    · rw [(hroots root hroot).2, List.exists_mem_cons_iff]

/-- **After a build, a root type is declared once by the published schema and what is shared
together, unless the source declares it and that of a former build did not: then it is declared
twice.** -/
theorem root_types_of_build (hother : schemaName ≠ "root.graphql")
    (hearlier : History folder schemaName earlier t)
    (hbuilds : Builds folder schemaName source j t) :
    ∃ published shared : Document,
      existingFile (j.build t).tree folder ("schema/" ++ schemaName)
        = .ok (some ("schema/" ++ schemaName, reread published.render)) ∧
      existingFile (j.build t).tree folder sharedLocation
        = .ok (some (sharedLocation, shared.render)) ∧
      Document.parse shared.render = .ok shared ∧
      ∀ root ∈ rootNames,
        (published.objectsNamed root).length + (shared.objectsNamed root).length
          = if root ∈ source.namesOf [.object] ∧ ∃ d ∈ earlier, root ∉ d.namesOf [.object] then 2
            else 1 := by
  obtain ⟨published, shared, hpublished, hshared, hgenerated, hroots⟩ :=
    hbuilds.step hother (hearlier.shares hother)
  refine ⟨published, shared, hpublished, hshared, hgenerated.parse_render.1, fun root hroot => ?_⟩
  obtain ⟨honce, hkeys⟩ := hroots root hroot
  rw [honce, Document.length_objectsNamed_of_nodup hgenerated.nodup,
    if_congr (Document.mem_keys_object.symm.trans hkeys) rfl rfl]
  by_cases hhere : root ∈ source.namesOf [.object]
  · by_cases hbefore : ∃ d ∈ earlier, root ∉ d.namesOf [.object]
    · simp [hhere, hbefore]
    · simp [hhere, hbefore]
  · simp [hhere]

/-! ### A query that comes later -/

/-- Notes. -/
def noteSchema : String := "type Note @model \x7b id: ID! \x7d"

/-- Notes, and a query that counts them. -/
def countedNotes : String :=
  "type Query \x7b notes: Int \x7d type Note @model \x7b id: ID! \x7d"

/-- The folder that notes are built into. -/
def noteFolder : Path := ⟨["w", "build"], false⟩

/-- A workspace with both schemas, and with folders to build into. -/
def noteTree : FileTree :=
  ⟨[(["w"], .folder), (["w", "old"], .folder),
    (["w", "old", "schema.graphql"], .file (.text noteSchema)),
    (["w", "schema.graphql"], .file (.text countedNotes)),
    (["w", "build"], .folder), (["w", "build", "schema"], .folder),
    (["w", "build", "mapping-templates"], .folder), (["w", "build", "resources"], .folder),
    (["w", "build", "resources", "dynamodb"], .folder),
    (["w", "build", "resources", "appsync"], .folder)]⟩

/-- A build of one of the schemas. -/
def noteJob (inSchema : String) : Job := { base := ⟨["w"], false⟩, config := { inSchema } }

/-- Where the root types are placed. -/
def rootPlace : Place := ["w", "build", "schema", "root.graphql"]

/-- What is built of notes. -/
def noteLocations : List String :=
  ["schema/schema.graphql", "schema/Note.graphql", sharedLocation,
    "resources/dynamodb/Note.resource.yml", "resources/appsync/Note.mapping.yml"]
    ++ ["Query.getNote", "Query.listNotes", "Mutation.createNote", "Mutation.updateNote",
      "Mutation.deleteNote"].flatMap fun field =>
        ["request", "response"].map (templateLocation field)

/-- Every location of notes leads to where nothing is. -/
theorem noteLocations_free : ∀ location ∈ noteLocations,
    Outcome.Holds (noteTree.locate (noteFolder.join location)) fun place =>
      noteTree.at? place = none ∧ (place = rootPlace → location = sharedLocation) := by
  decide +kernel

/-- What is known of notes without looking at generated documents. -/
theorem notes_compile {text : String} (h : text ∈ [noteSchema, countedNotes]) :
    Outcome.Holds (Document.parse text) fun source =>
      source.IsApart ∧ (∃ body ∈ source.objects, Catalog.saysTable none body = true) ∧
        (∀ root ∈ rootNames, (source.objectsNamed root).length ≤ 1) ∧
        GivesNames "schema.graphql" none text ∧
        Outcome.Holds (compile "schema.graphql" none text).outcome fun first =>
          ∀ location ∈ locations first.fragments, location ∈ noteLocations ∧
            (location ∈ ["schema/Note.graphql", sharedLocation] ∨
              Outcome.Holds (assembleBody location none (addressedTo location first.fragments))
                fun _ => True) := by
  have hchecks : Outcome.Holds (Document.parse text) fun source =>
      (source.IsApart ∧ (∃ body ∈ source.objects, Catalog.saysTable none body = true) ∧
        ∀ root ∈ rootNames, (source.objectsNamed root).length ≤ 1) ∧
        Outcome.Holds (Catalog.collected source "schema.graphql" none) (·.GivesNames) ∧
        Outcome.Holds (compileDocument "schema.graphql" none source).outcome fun first =>
          ∀ location ∈ locations first.fragments, location ∈ noteLocations ∧
            (location ∈ ["schema/Note.graphql", sharedLocation] ∨
              Outcome.Holds (assembleBody location none (addressedTo location first.fragments))
                fun _ => True) := by
    simp only [List.mem_cons, List.not_mem_nil, or_false] at h
    rcases h with rfl | rfl
    · set_option maxRecDepth 2000 in refine Document.holds_parse rfl ?_
      decide +kernel
    · set_option maxRecDepth 2000 in refine Document.holds_parse rfl ?_
      decide +kernel
  obtain ⟨source, hparse, ⟨hapart, htable, honce⟩, ⟨before, hcollected, hnames⟩, hcompile⟩ :=
    hchecks
  refine ⟨source, hparse, hapart, htable, honce, givesNames_of_collected hparse hcollected hnames,
    ?_⟩
  rw [outcome_compile_of_parse hparse]
  exact hcompile

/-- Notes are built where nothing is in the way. -/
theorem builds_notes {inSchema text : String} {t : FileTree}
    (hnotes : text ∈ [noteSchema, countedNotes])
    (hname : (noteJob inSchema).schemaPath.name = "schema.graphql")
    (htext : t.readText (noteJob inSchema).schemaPath = .ok text) (hclosed : t.IsClosed)
    (haccepts : ∀ location ∈ noteLocations, t.Accepts (noteFolder.join location))
    (hnone : ∀ location ∈ noteLocations, location ≠ sharedLocation →
      existingFile t noteFolder location = .ok none)
    (hshared : ∃ found start, existingFile t noteFolder sharedLocation = .ok found ∧
      startDocument sharedLocation (found.map (·.2)) = .ok start) :
    Outcome.Holds (Document.parse text) fun source =>
      Builds noteFolder "schema.graphql" source (noteJob inSchema) t := by
  obtain ⟨source, hparse, hapart, htable, honce, hgives, first, hfirst, hplan⟩ :=
    notes_compile hnotes
  have hfolder : (noteJob inSchema).buildPath = noteFolder := by
    have hpath : (⟨["w"], false⟩ : Path).join "build" = noteFolder := by decide
    exact hpath
  have hproper : (⟨["w"], false⟩ : Path).IsProper := by decide
  have hdocument := Compilation.document_eq hfirst
  rw [hparse] at hdocument
  cases hdocument
  refine ⟨_, hparse, hfolder, hname, rfl, ⟨text, htext, hparse⟩,
    Document.parse_render hparse hapart, htable, honce, ?_, hproper, hclosed, ?_⟩
  · intro other hother
    rw [htext] at hother
    cases hother
    rw [hname]
    exact hgives
  rw [← hname] at hgives hfirst
  refine Job.exists_build_of_compile htext hgives hfirst htable (fun location hlocation => ?_)
    fun location hlocation => hfolder ▸ haccepts location (hplan location hlocation).1
  obtain ⟨hmem, hkind⟩ := hplan location hlocation
  rw [Job.Joins, hfolder, hname]
  by_cases hroot : location = sharedLocation
  · exact Or.inl ⟨"root.graphql", hroot, by decide, hroot ▸ by decide, hroot ▸ hshared⟩
  have hfound := hnone location hmem hroot
  rcases hkind with hgenerated | ⟨body, hbody, -⟩
  · have hown : location = "schema/Note.graphql" := by
      simpa [hroot] using hgenerated
    exact Or.inl ⟨"Note.graphql", hown, by decide, hown ▸ by decide, none, .empty, hfound, rfl⟩
  · exact Or.inr ⟨hfound, body, hbody⟩

theorem isClosed_noteTree : noteTree.IsClosed := FileTree.isClosed_of_entries (by decide +kernel)

theorem accepts_noteLocations :
    ∀ location ∈ noteLocations, noteTree.Accepts (noteFolder.join location) := by
  intro location hlocation
  obtain ⟨place, hplace, hnone, -⟩ := noteLocations_free location hlocation
  refine ⟨place, hplace, ?_⟩
  rw [hnone]
  exact nofun

/-- Notes are built into an empty folder. -/
theorem builds_noteSchema : Outcome.Holds (Document.parse noteSchema) fun source =>
    Builds noteFolder "schema.graphql" source (noteJob "old/schema.graphql") noteTree ∧
      existingFile noteTree noteFolder sharedLocation = .ok none := by
  have hfree :
      ∀ location ∈ noteLocations, existingFile noteTree noteFolder location = .ok none := by
    intro location hlocation
    obtain ⟨place, hplace, hnone, -⟩ := noteLocations_free location hlocation
    exact existingFile_of_free hplace hnone
  have htext : noteTree.readText (noteJob "old/schema.graphql").schemaPath = .ok noteSchema := by
    decide +kernel
  have hroot := hfree sharedLocation (by decide)
  obtain ⟨source, hparse, hbuilds⟩ := builds_notes (by decide) (by decide) htext isClosed_noteTree
    accepts_noteLocations (fun location hlocation _ => hfree location hlocation)
    ⟨none, .empty, hroot, rfl⟩
  exact ⟨source, hparse, hbuilds, hroot⟩

/-- Notes and their query are built into a folder where a document of root types is. -/
theorem builds_countedNotes {doc : Document} (hback : Document.parse doc.render = .ok doc)
    (hplain : ∀ c ∈ doc.render.toList, c ≠ '\r') :
    Outcome.Holds (Document.parse countedNotes) fun source =>
      Builds noteFolder "schema.graphql" source (noteJob "schema.graphql")
        (noteTree.put rootPlace (.file (.text doc.render))) ∧
      existingFile (noteTree.put rootPlace (.file (.text doc.render))) noteFolder sharedLocation
        = .ok (some (sharedLocation, doc.render)) := by
  have hfree : noteTree.at? rootPlace ≠ some .folder := by decide +kernel
  have haround : noteTree.at? rootPlace.dropLast = some .folder := by decide +kernel
  have hput := FileTree.grows_put (FileTree.ne_nil_of_free hfree)
    (Or.inr ⟨hfree, Content.text doc.render, rfl⟩)
  have hplace :
      noteTree.locate (noteFolder.join sharedLocation) = .ok rootPlace := by decide +kernel
  have hshared : existingFile (noteTree.put rootPlace (.file (.text doc.render))) noteFolder
      sharedLocation = .ok (some (sharedLocation, doc.render)) := by
    have htext : (Content.text doc.render).text? = some doc.render :=
      congrArg some (reread_of_ne_return hplain)
    exact existingFile_of_file (hput.locate hplace)
      (FileTree.at?_put_self _ (FileTree.ne_nil_of_free hfree)) htext
  have htext : (noteTree.put rootPlace (.file (.text doc.render))).readText
      (noteJob "schema.graphql").schemaPath = .ok countedNotes := by
    have hschema : noteTree.locate (noteJob "schema.graphql").schemaPath
        = .ok ["w", "schema.graphql"] := by
      decide +kernel
    have hthere : noteTree.at? ["w", "schema.graphql"] = some (.file (.text countedNotes)) := by
      decide +kernel
    have hread : reread countedNotes = countedNotes := by decide +kernel
    rw [← FileTree.at?_put_of_ne (.file (.text doc.render)) (by decide : _ ≠ rootPlace)] at hthere
    rw [FileTree.readText_of_file (hput.locate hschema) hthere]
    exact congrArg Except.ok hread
  have hstart : startDocument sharedLocation (some doc.render) = .ok doc := by
    rw [startDocument, parseSchema, hback]
    rfl
  have hothers : ∀ location ∈ noteLocations, location ≠ sharedLocation →
      existingFile (noteTree.put rootPlace (.file (.text doc.render))) noteFolder location
        = .ok none := by
    intro location hlocation hother
    obtain ⟨place, hplace, hnone, hroot⟩ := noteLocations_free location hlocation
    have hapart : place ≠ rootPlace := fun hsame => hother (hroot hsame)
    refine existingFile_of_free (hput.locate hplace) ?_
    rw [FileTree.at?_put_of_ne _ hapart, hnone]
  obtain ⟨source, hparse, hbuilds⟩ := builds_notes (by decide) (by decide) htext
    (isClosed_noteTree.put hfree haround _)
    (fun location hlocation => (accepts_noteLocations location hlocation).put hfree _) hothers
    ⟨some (sharedLocation, doc.render), doc, hshared, hstart⟩
  exact ⟨source, hparse, hbuilds, hshared⟩

/-- **Notes are built, and then with a query.  The query type is declared twice from then on.** -/
theorem countedNotes_declared_twice :
    ∃ (earlier source : Document) (t : FileTree) (published shared : Document),
      Document.parse noteSchema = .ok earlier ∧ Document.parse countedNotes = .ok source ∧
      "schema.graphql" ≠ "root.graphql" ∧ History noteFolder "schema.graphql" [earlier] t ∧
      Builds noteFolder "schema.graphql" source (noteJob "schema.graphql") t ∧
      existingFile ((noteJob "schema.graphql").build t).tree noteFolder
        ("schema/" ++ "schema.graphql")
        = .ok (some ("schema/" ++ "schema.graphql", reread published.render)) ∧
      existingFile ((noteJob "schema.graphql").build t).tree noteFolder sharedLocation
        = .ok (some (sharedLocation, shared.render)) ∧
      (published.objectsNamed "Query").length + (shared.objectsNamed "Query").length = 2 ∧
      (published.objectsNamed "Mutation").length + (shared.objectsNamed "Mutation").length = 1 := by
  have hother : "schema.graphql" ≠ "root.graphql" := by decide
  have hdeclares : Outcome.Holds (Document.parse noteSchema) fun earlier =>
      Outcome.Holds (Document.parse countedNotes) fun source =>
        "Query" ∉ earlier.namesOf [.object] ∧ "Query" ∈ source.namesOf [.object] ∧
          "Mutation" ∉ source.namesOf [.object] := by
    decide +kernel
  obtain ⟨earlier, hearlier, source, hsource, hnot, hquery, hmutation⟩ := hdeclares
  obtain ⟨first, hfirst, hbuilds, hnone⟩ := builds_noteSchema
  rw [hearlier] at hfirst
  cases hfirst
  have hstart : History noteFolder "schema.graphql" [] noteTree := .start hnone
  obtain ⟨-, before, -, hbefore, hgenerated, -⟩ := hbuilds.step hother (hstart.shares hother)
  obtain ⟨hback, hplain⟩ := hgenerated.parse_render
  obtain ⟨second, hsecond, hagain, hsame⟩ := builds_countedNotes hback hplain
  rw [hsource] at hsecond
  cases hsecond
  have hhistory := (hstart.build hbuilds).change (hsame.trans hbefore.symm)
  obtain ⟨published, shared, hpublished, hshared, -, hcounts⟩ :=
    root_types_of_build hother hhistory hagain
  refine ⟨earlier, source, _, published, shared, hearlier, hsource, hother, hhistory, hagain,
    hpublished, hshared, ?_, ?_⟩
  · rw [hcounts "Query" (by decide), if_pos ⟨hquery, earlier, List.mem_cons_self, hnot⟩]
  · rw [hcounts "Mutation" (by decide), if_neg fun h => hmutation h.1]

end Workspace

end SchemaLoom
