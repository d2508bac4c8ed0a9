/-
Where fragments are placed, and in what order.

The locations of fragments join file names, as long as the names that go into them are names of
the language (`Emits.isLocation`).  A name has no slash, and what is put around it has none
either.

Only two kinds of fragments edit something: edits of the published schema, and edits of the
declarations of tables, which come behind those declarations.  So what is placed anywhere else
than the published schema begins with content (`leads_emit`), and what is placed in a schema
document is nothing but content (`Emits.patch_eq_none`).

Hence `renews_emit`: what a catalog emits for one location makes of its file what it would have
made from scratch, whatever had been emitted for it before.
-/
import SchemaLoom.Proofs.Artifact.Location
import SchemaLoom.Proofs.Artifact.Assembly
import SchemaLoom.Proofs.Surface.Generated

namespace SchemaLoom

open Artifact Surface Sdl

/-! ### Locations

Every location is a folder and the name of a file that is made of names and points.  Names hold no
slashes, so that the parts of a location are those that it was made from.
-/

theorem not_slash_append {s t : String} (hs : '/' ∉ s.toList) (ht : '/' ∉ t.toList) :
    '/' ∉ (s ++ t).toList := by
  rw [String.toList_append, List.mem_append, not_or]
  exact ⟨hs, ht⟩

/-- What begins with a name is the name of a file. -/
theorem isFileName_of_isName {stem ending : String} (hstem : isName stem = true)
    (hending : '/' ∉ ending.toList) : IsFileName (stem ++ ending) := by
  have hhead : ∀ cs : List Char, (stem ++ ending).toList = '.' :: cs → False := by
    intro cs htext
    rw [String.toList_append] at htext
    unfold isName at hstem
    cases hchars : stem.toList with
    | nil => simp [hchars] at hstem
    | cons c rest =>
      simp only [hchars, Bool.and_eq_true] at hstem
      rw [hchars, List.cons_append, List.cons.injEq] at htext
      rw [htext.1] at hstem
      exact absurd hstem.1 (by decide)
  refine ⟨?_, ?_, ?_, ?_⟩
  · intro hempty
    have hnone := congrArg String.toList hempty
    rw [String.toList_append] at hnone
    have hstemnone : stem.toList = [] := (List.append_eq_nil_iff.1 hnone).1
    simp [isName, hstemnone] at hstem
  · intro hhere
    exact hhead [] (congrArg String.toList hhere)
  · intro hback
    exact hhead ['.'] (congrArg String.toList hback)
  · exact not_slash_append (not_mem_of_isName (by decide) hstem) hending

/-- A file name in a folder. -/
theorem isLocation_within {folder name : String} (hfolder : IsFileName folder)
    (hname : IsFileName name) : IsLocation (folder ++ "/" ++ name) :=
  ⟨[folder, name], by simp, by simp [hfolder, hname], rfl⟩

/-- A file name in a folder in a folder. -/
theorem isLocation_deep {outer folder name : String} (houter : IsFileName outer)
    (hfolder : IsFileName folder) (hname : IsFileName name) :
    IsLocation (outer ++ "/" ++ folder ++ "/" ++ name) :=
  ⟨[outer, folder, name], by simp, by simp [houter, hfolder, hname], rfl⟩

namespace Catalog

variable {c : Catalog} {location : String}

/-- The fields that are resolved by templates have names, and so have their types. -/
theorem Resolves.isNamed (hrooted : c.Rooted) (hdocument : c.document.IsNamed)
    (htables : c.IsNamed) {type field : String} (h : c.Resolves type field) :
    isName type = true ∧ isName field = true := by
  cases h with
  | get htable => exact ⟨by decide, isName_join (by decide) (htables _ htable).name⟩
  | list htable =>
    exact ⟨by decide, isName_join (isName_join (by decide) (htables _ htable).name) (by decide)⟩
  | mutation htable action =>
    have haction : isName action.text = true := by cases action <;> decide
    exact ⟨by decide, isName_join haction (htables _ htable).name⟩
  | query htable hkey => exact ⟨by decide, isName_queryName (htables _ htable) hkey⟩
  | relation htable hrelation =>
    exact ⟨(htables _ htable).name, ((htables _ htable).ends _ hrelation).1⟩
  | function hbinding =>
    obtain ⟨d, f, hsite, -, rfl, rfl⟩ := hrooted.functions _ _ _ hbinding
    obtain ⟨hd, hf⟩ := Document.field_mem_sites.1 hsite
    have hdefinition := hdocument _ (Document.mem_declarations.1 hd)
    cases d with
    | object body =>
      obtain ⟨g, hg, hsame⟩ := List.mem_map.1 hf
      cases hsame
      exact ⟨hdefinition.1, (hdefinition.2 f hg).name⟩
    | input body =>
      obtain ⟨g, -, hsame⟩ := List.mem_map.1 hf
      cases hsame

theorem isLocation_template {stem ending phase : String} (hstem : isName stem = true)
    (hending : '/' ∉ ending.toList) (hphase : phase ∈ ["request", "response"]) :
    IsLocation (templateLocation (stem ++ ending) phase) := by
  have hphasename : '/' ∉ phase.toList := by
    simp only [List.mem_cons, List.not_mem_nil, or_false] at hphase
    rcases hphase with rfl | rfl <;> decide
  have hslash : '/' ∉ (ending ++ "." ++ phase ++ ".vtl").toList :=
    not_slash_append (not_slash_append (not_slash_append hending (by decide)) hphasename)
      (by decide)
  have hfolder : IsFileName "mapping-templates" :=
    ⟨by decide, by decide, by decide, by decide⟩
  have hwhole := isLocation_within hfolder (isFileName_of_isName hstem hslash)
  have htext : "mapping-templates" ++ "/" = "mapping-templates/" := rfl
  rw [htext] at hwhole
  unfold templateLocation
  simpa only [String.append_assoc] using hwhole

/-- A location within a folder of resources. -/
theorem isLocation_resource {folder path stem ending : String} (hfolder : IsFileName folder)
    (hpath : "resources/" ++ folder ++ "/" = path) (hstem : isName stem = true)
    (hending : '/' ∉ ending.toList) : IsLocation (path ++ stem ++ ending) := by
  have houter : IsFileName "resources" := ⟨by decide, by decide, by decide, by decide⟩
  have hwhole := isLocation_deep houter hfolder (isFileName_of_isName hstem hending)
  have htext : "resources" ++ "/" ++ folder = "resources/" ++ folder := rfl
  rw [htext, hpath] at hwhole
  rwa [String.append_assoc]

theorem isFileName_dynamodb : IsFileName "dynamodb" :=
  ⟨by decide, by decide, by decide, by decide⟩

theorem isFileName_appsync : IsFileName "appsync" :=
  ⟨by decide, by decide, by decide, by decide⟩

theorem isLocation_binding {type field : String} (htype : isName type = true)
    (hfield : isName field = true) : IsLocation (bindingLocation type field) := by
  have hending : '/' ∉ ("." ++ field ++ ".mapping.yml").toList :=
    not_slash_append (not_slash_append (by decide) (not_mem_of_isName (by decide) hfield))
      (by decide)
  have hpath : "resources/" ++ "appsync" ++ "/" = "resources/appsync/" := rfl
  have hwhole := isLocation_resource isFileName_appsync hpath htype hending
  unfold bindingLocation
  simpa only [String.append_assoc] using hwhole

theorem isFileName_schema : IsFileName "schema" := ⟨by decide, by decide, by decide, by decide⟩

theorem isLocation_schema {stem ending : String} (hstem : isName stem = true)
    (hending : '/' ∉ ending.toList) : IsLocation (schemaLocation (stem ++ ending)) := by
  have hslash : '/' ∉ (ending ++ ".graphql").toList := not_slash_append hending (by decide)
  have hwhole := isLocation_within isFileName_schema (isFileName_of_isName hstem hslash)
  have htext : "schema" ++ "/" = "schema/" := rfl
  rw [htext] at hwhole
  unfold schemaLocation
  simpa only [String.append_assoc] using hwhole

/-- A generated document is placed where documents are. -/
theorem medium_schemaLocation {stem ending : String} (hstem : isName stem = true)
    (hending : '/' ∉ ending.toList) : medium (schemaLocation (stem ++ ending)) = .sdl := by
  have hslash : '/' ∉ (ending ++ ".graphql").toList := not_slash_append hending (by decide)
  have hfile := isFileName_of_isName hstem hslash
  have hparts := components_intercalate (List.cons_ne_nil _ _)
    (List.forall_mem_cons.2 ⟨isFileName_schema, List.forall_mem_singleton.2 hfile⟩)
  have htext : "/".intercalate ["schema", stem ++ (ending ++ ".graphql")]
      = schemaLocation (stem ++ ending) := by
    rw [← String.toList_inj]
    simp [schemaLocation, String.intercalate_cons_cons]
  rw [htext] at hparts
  have hname : (fileName (schemaLocation (stem ++ ending))).toList
      = (stem.toList ++ ending.toList) ++ '.' :: "graphql".toList := by
    rw [fileName, hparts]
    simp
  have hsome : stem.toList ++ ending.toList ≠ [] := by
    intro hnone
    rw [isName, (List.append_eq_nil_iff.1 hnone).1] at hstem
    cases hstem
  unfold medium
  rw [suffix_of_fileName hname (by decide) (by decide), if_neg hsome]
  decide

/-- Generated documents are placed where documents are. -/
theorem medium_of_documentLocations (htables : c.IsNamed)
    (h : location ∈ c.documentLocations) : medium location = .sdl := by
  rw [Catalog.documentLocations, List.mem_append] at h
  rcases h with h | h
  · obtain ⟨t, ht, h⟩ := List.mem_flatMap.1 h
    obtain ⟨part, hpart, h⟩ := List.mem_flatMap.1 h
    have hname := (htables t ht).name
    cases part with
    | operations =>
      cases List.mem_singleton.1 h
      have hmedium := medium_schemaLocation hname (by decide : '/' ∉ "".toList)
      rwa [String.append_empty] at hmedium
    | query key =>
      cases List.mem_singleton.1 h
      have hkey : key ∈ t.queryKeys := by simpa [Table.parts] using hpart
      have hending : '/' ∉ ("." ++ queryName key).toList :=
        not_slash_append (by decide)
          (not_mem_of_isName (by decide) (isName_queryName (htables t ht) hkey))
      have hmedium := medium_schemaLocation hname hending
      rwa [← String.append_assoc] at hmedium
    | storage => cases h
    | relation r => cases h
  · split at h
    · cases h
    · cases List.mem_singleton.1 h
      decide

theorem Generates.isLocation (htables : c.IsNamed) {ds : List Surface.Declaration}
    (h : c.Generates location ds) : IsLocation location := by
  cases h with
  | @operations t _ htable _ =>
    have hplain := isLocation_schema (htables t htable).name (by decide : '/' ∉ "".toList)
    rwa [String.append_empty] at hplain
  | @query t key _ htable hkey _ =>
    have hending : '/' ∉ ("." ++ queryName key).toList :=
      not_slash_append (by decide)
        (not_mem_of_isName (by decide) (isName_queryName (htables t htable) hkey))
    have hwhole := isLocation_schema (htables t htable).name hending
    rwa [← String.append_assoc] at hwhole
  | shared _ _ =>
    have hroot : isName "root" = true := by decide
    exact isLocation_schema hroot (by decide : '/' ∉ "".toList)

/-- **All fragments are placed at locations that join file names.** -/
theorem Emits.isLocation (hrooted : c.Rooted) (hdocument : c.document.IsNamed)
    (htables : c.IsNamed) (hpublished : IsFileName c.schemaName) {f : Fragment} (h : c.Emits f) :
    IsLocation f.location := by
  have hdynamo : "resources/" ++ "dynamodb" ++ "/" = "resources/dynamodb/" := rfl
  have happsync : "resources/" ++ "appsync" ++ "/" = "resources/appsync/" := rfl
  cases h with
  | seed => exact isLocation_within isFileName_schema hpublished
  | edit _ => exact isLocation_within isFileName_schema hpublished
  | document hgenerates => exact hgenerates.isLocation htables
  | @template type field phase text replaceable hfield hphase =>
    obtain ⟨htype, hname⟩ := hfield.isNamed hrooted hdocument htables
    have hending : '/' ∉ ("." ++ field).toList :=
      not_slash_append (by decide) (not_mem_of_isName (by decide) hname)
    have hwhole := isLocation_template htype hending hphase
    rwa [← String.append_assoc] at hwhole
  | @step t name phase text htable hname hphase =>
    have hstep : isName name = true := by
      have htablename := (htables t htable).name
      simp only [List.mem_cons, List.not_mem_nil, or_false] at hname
      rcases hname with rfl | rfl | rfl
      · exact isName_join htablename (by decide)
      · exact isName_join (isName_join (by decide) htablename) (by decide)
      · exact isName_join (isName_join (by decide) htablename) (by decide)
    have hwhole := isLocation_template hstep (by decide : '/' ∉ "".toList) hphase
    rwa [String.append_empty] at hwhole
  | table htable _ =>
    exact isLocation_resource isFileName_dynamodb hdynamo (htables _ htable).name (by decide)
  | tableEdit htable =>
    exact isLocation_resource isFileName_dynamodb hdynamo (htables _ htable).name (by decide)
  | bindings htable =>
    exact isLocation_resource isFileName_appsync happsync (htables _ htable).name (by decide)
  | steps htable =>
    exact isLocation_resource isFileName_appsync happsync (htables _ htable).name (by decide)
  | binding hfield =>
    obtain ⟨htype, hname⟩ := hfield.isNamed hrooted hdocument htables
    exact isLocation_binding htype hname
  | queryBinding htable hkey =>
    exact isLocation_binding (htables _ htable).name (isName_queryName (htables _ htable) hkey)

/-! ### Content first

The order matters only where edits are, which is in the files of tables.  There the declaration is
emitted first, and all edits of a table follow it in the same part.
-/

/-- The fragment `f` provides content, unless it is placed in the published schema of `c`. -/
def Provides (c : Catalog) (f : Fragment) : Prop :=
  f.patch = none ∨ f.location = c.publishedLocation

theorem leads_of_provides {fs : List Fragment} (h : ∀ f ∈ fs, c.Provides f)
    (hother : location ≠ c.publishedLocation) : Leads location fs := by
  intro f hfirst
  obtain ⟨hmem, hhere⟩ := List.mem_filter.1 (List.mem_of_head? hfirst)
  rcases h f hmem with hpatch | hpublished
  · exact hpatch
  · exact absurd ((of_decide_eq_true hhere).symm.trans hpublished) hother

theorem leads_append {fs gs : List Fragment} (hfs : Leads location fs) (hgs : Leads location gs) :
    Leads location (fs ++ gs) := by
  intro f hfirst
  rw [addressedTo_append, List.head?_append] at hfirst
  cases hhead : (addressedTo location fs).head? with
  | none =>
    rw [hhead, Option.none_or] at hfirst
    exact hgs f hfirst
  | some first =>
    rw [hhead, Option.some_or] at hfirst
    cases hfirst
    exact hfs f hhead

theorem leads_flatten {parts : List (List Fragment)} (h : ∀ fs ∈ parts, Leads location fs) :
    Leads location parts.flatten := by
  induction parts with
  | nil => intro f hfirst; cases hfirst
  | cons fs parts ih =>
    rw [List.forall_mem_cons] at h
    exact leads_append h.1 (ih h.2)

/-- The declaration of a table comes before its edits. -/
theorem leads_storage {t : Table} {fs : List Fragment} (h : storageFragments t = .ok fs) :
    Leads location fs := by
  unfold storageFragments at h
  obtain ⟨base, -, h⟩ := Outcome.of_bind_eq_ok h
  obtain ⟨others, -, h⟩ := Outcome.of_bind_eq_ok h
  obtain ⟨definitions, hdefinitions, h⟩ := Outcome.of_bind_eq_ok h
  obtain ⟨indexes, -, h⟩ := Outcome.of_bind_eq_ok h
  cases h
  by_cases hhere : tableLocation t.name = location
  · intro f hfirst
    rw [List.cons_append, addressedTo_cons, if_pos (by exact hhere)] at hfirst
    cases hfirst
    rfl
  · intro f hfirst
    rw [addressedTo_eq_nil] at hfirst
    · cases hfirst
    · intro g hg
      simp only [List.cons_append, List.mem_cons, List.mem_append, List.mem_map] at hg
      rcases hg with rfl | hg | ⟨i, -, rfl⟩
      · exact hhere
      · obtain ⟨name, -, hname⟩ := Outcome.exists_of_mem_mapM hdefinitions hg
        obtain ⟨definition, -, hname⟩ := Outcome.of_bind_eq_ok hname
        cases hname
        exact hhere
      · exact hhere

theorem provides_templatePair {name : String} {request response : Resolver.Template} {kept : Bool} :
    ∀ f ∈ templatePair name request response kept, c.Provides f := by
  intro f hf
  simp only [templatePair, List.mem_cons, List.not_mem_nil, or_false] at hf
  rcases hf with rfl | rfl <;> exact Or.inl rfl

theorem provides_operationTemplates {t : Table} {fs : List Fragment}
    (h : operationTemplates t = .ok fs) : ∀ f ∈ fs, c.Provides f := by
  unfold operationTemplates at h
  obtain ⟨isGenerated, -, h⟩ := Outcome.of_bind_eq_ok h
  cases h
  intro f hf
  rw [List.mem_append, List.mem_append] at hf
  rcases hf with (hf | hf) | hf
  · exact provides_templatePair f hf
  · exact provides_templatePair f hf
  · split at hf
    · simp only [directMutations, List.mem_append] at hf
      rcases hf with (hf | hf) | hf <;> exact provides_templatePair f hf
    · simp only [steppedMutations, List.mem_append, List.mem_flatMap, List.mem_singleton] at hf
      rcases hf with ((((hf | ⟨action, -, hf⟩) | hf) | hf) | hf) | rfl
      · exact provides_templatePair f hf
      · exact provides_templatePair f hf
      · exact provides_templatePair f hf
      · exact provides_templatePair f hf
      · exact provides_templatePair f hf
      · exact Or.inl rfl

/-- What one part of a table has for a location begins with content. -/
theorem leads_part {t : Table} {part : TablePart} {fs : List Fragment}
    (hother : location ≠ c.publishedLocation) (h : (c.partFragments t part).outcome = .ok fs) :
    Leads location fs := by
  cases part with
  | storage => exact leads_storage h
  | operations =>
    simp only [partFragments, operationFragments, Report.outcome_bind, Report.outcome_lift] at h
    obtain ⟨schema, -, h⟩ := Outcome.of_bind_eq_ok h
    obtain ⟨templates, htemplates, h⟩ := Outcome.of_bind_eq_ok h
    cases h
    refine leads_of_provides ?_ hother
    intro f hf
    simp only [List.cons_append, List.mem_cons, List.mem_append] at hf
    rcases hf with rfl | hf | rfl | hf
    · exact Or.inl rfl
    · rw [typeEdits_eq] at hf
      obtain ⟨e, -, rfl⟩ := List.mem_map.1 hf
      exact Or.inr rfl
    · exact Or.inl rfl
    · exact provides_operationTemplates htemplates f hf
  | query key =>
    simp only [partFragments, Report.outcome_lift, queryFragments] at h
    obtain ⟨schema, -, h⟩ := Outcome.of_bind_eq_ok h
    cases h
    refine leads_of_provides ?_ hother
    intro f hf
    simp only [List.cons_append, List.nil_append, List.mem_cons] at hf
    rcases hf with rfl | rfl | hf
    · exact Or.inl rfl
    · exact Or.inl rfl
    · exact provides_templatePair f hf
  | relation r =>
    simp only [partFragments, Report.outcome_pure, Except.ok.injEq] at h
    subst h
    refine leads_of_provides ?_ hother
    intro f hf
    simp only [relationFragments, List.cons_append, List.mem_cons, List.mem_append] at hf
    rcases hf with rfl | hf | hf
    · exact Or.inl rfl
    · exact provides_templatePair f hf
    · split at hf
      · rw [List.mem_singleton.1 hf]
        exact Or.inr rfl
      · cases hf

theorem provides_binding (b : Binding) : ∀ f ∈ bindingFragments c b, c.Provides f := by
  intro f hf
  cases b with
  | function type field source =>
    simp only [bindingFragments, functionFragments, List.cons_append, List.mem_cons,
      List.mem_append] at hf
    rcases hf with rfl | hf | hf
    · exact Or.inl rfl
    · exact provides_templatePair f hf
    · split at hf
      · cases hf
      · rw [List.mem_singleton.1 hf]
        exact Or.inr rfl
  | foreignInput type field foreignKey isCondition =>
    rw [List.mem_singleton.1 hf]
    exact Or.inr rfl

/-- **What is placed anywhere else than the published schema begins with content** (`Leads`). -/
theorem leads_emit {fs : List Fragment} (h : c.emit.outcome = .ok fs)
    (hother : location ≠ c.publishedLocation) : Leads location fs := by
  simp only [emit, Report.outcome_bind, Report.outcome_mapM, Report.outcome_lift] at h
  obtain ⟨tables, htables, h⟩ := Outcome.of_bind_eq_ok h
  obtain ⟨shared, hshared, h⟩ := Outcome.of_bind_eq_ok h
  have hof : Leads location tables.flatten := by
    refine leads_flatten fun fs hfs => ?_
    obtain ⟨t, -, hfragments⟩ := Outcome.exists_of_mem_mapM htables hfs
    rw [tableFragments, Report.outcome_map, Report.outcome_mapM] at hfragments
    obtain ⟨parts, hparts, hflat⟩ := Outcome.of_bind_eq_ok hfragments
    cases hflat
    refine leads_flatten fun gs hgs => ?_
    obtain ⟨part, -, hone⟩ := Outcome.exists_of_mem_mapM hparts hgs
    exact leads_part hother hone
  have hrest : Leads location (c.bindings.flatMap (bindingFragments c) ++ shared
      ++ stripFragments c) := by
    refine leads_of_provides ?_ hother
    intro f hf
    simp only [List.mem_append, List.mem_flatMap] at hf
    rcases hf with (⟨b, -, hf⟩ | hf) | hf
    · exact provides_binding b f hf
    · unfold sharedFragments at hshared
      split at hshared
      · cases hshared
        cases hf
      · obtain ⟨schema, -, rfl⟩ := Outcome.of_map_eq_ok hshared
        rw [List.mem_singleton.1 hf]
        exact Or.inl rfl
    · obtain ⟨e, -, rfl⟩ := List.mem_map.1 hf
      exact Or.inr rfl
  have hall := leads_append hof hrest
  simp only [← List.append_assoc] at hall
  split at h
  · cases h
    have hseed : Leads location [c.seed] := leads_of_provides
      (fun f hf => by rw [List.mem_singleton.1 hf]; exact Or.inl rfl) hother
    exact leads_append hseed hall
  · cases h
    exact hall

theorem medium_tableLocation (table : String) : medium (tableLocation table) ≠ .sdl :=
  medium_structured_of (show ".resource" ++ ".yml" = ".resource.yml" from rfl)

/-- **A schema document other than the published one is made of nothing but content.** -/
theorem Emits.patch_eq_none {f : Fragment} (h : c.Emits f)
    (hother : f.location ≠ c.publishedLocation) (hmedium : medium f.location = .sdl) :
    f.patch = none := by
  cases h with
  | edit _ => exact absurd rfl hother
  | tableEdit _ => exact absurd hmedium (medium_tableLocation _)
  | _ => rfl

/-- **All that a catalog emits for one location makes of its file what it made before** (`Renews`).
-/
theorem renews_emit {fs : List Fragment} (h : c.emit.outcome = .ok fs)
    (hother : location ≠ c.publishedLocation) : Renews location fs := by
  refine ⟨leads_emit h hother, ?_⟩
  intro hmedium f hf
  obtain ⟨hmem, hhere⟩ := List.mem_filter.1 hf
  have hlocation := of_decide_eq_true hhere
  subst hlocation
  exact (emits_of_emit h f hmem).patch_eq_none hother hmedium

end Catalog

end SchemaLoom
