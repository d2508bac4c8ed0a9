/-
Where resolvers are placed.

The resolver of a field has a pair of templates and a binding to its source of data; the
operations of a table share one file of bindings, and the steps of its mutations have templates
of their own.  The file names are put together from names of types and fields, with a point
between them.  Names of types have no points, so a file name says what the file is for
(`ResolverPlace.eq_of_mem_locations`).

A `ResolverPlace` is what a file is for, and `locations` are the files of a place.  What is
emitted for resolvers is followed part by part, so that the files of resolvers, in order, are
those of the places that are asked for (`resolverFiles_emit`).  So two fragments share a file
just if two parts, or bindings of fields, ask for the same place.
-/
import Mathlib.Data.List.Nodup
import SchemaLoom.Proofs.Catalog.Emission

namespace SchemaLoom

open Artifact Surface

/-! ### Places -/

/-- What a file is for that belongs to resolvers. -/
inductive ResolverPlace where
  /-- The templates of a field. -/
  | resolver (type field : String)
  /-- The templates of a step. -/
  | step (name : String)
  /-- The bindings of the operations of a table. -/
  | operations (table : String)
  /-- The binding of a field. -/
  | binding (type field : String)
  deriving DecidableEq, Repr

namespace ResolverPlace

/-- Where the files of a place are. -/
def locations : ResolverPlace → List String
  | resolver type field => ["request", "response"].map (templateLocation (type ++ "." ++ field))
  | step name => ["request", "response"].map (templateLocation name)
  | operations table => [bindingsLocation table]
  | binding type field => [bindingLocation type field]

/-- What is particular in the names of the files of a place. -/
def stem : ResolverPlace → String
  | resolver type field | binding type field => type ++ "." ++ field
  | step name => name
  | operations table => table

/-- The files of the place are templates. -/
def isTemplate : ResolverPlace → Bool
  | resolver .. | step _ => true
  | operations _ | binding .. => false

/-- The place is named after a type, a table or a step whose name has no points. -/
def IsPlain : ResolverPlace → Prop
  | resolver name _ | binding name _ | step name | operations name => '.' ∉ name.toList

end ResolverPlace

/-! ### Names of files

A location is told by how it begins and how it ends (`isBetween`), which is enough to say what is
a file of a resolver and what is not.
-/

/-- The text `text` begins with `beginning` and ends with `ending`; the two may overlap. -/
def isBetween (beginning ending text : String) : Bool :=
  beginning.toList.isPrefixOf text.toList && ending.toList.isSuffixOf text.toList

/-- The location is that of a template. -/
def isTemplateFile (location : String) : Bool := isBetween "mapping-templates/" ".vtl" location

/-- The location is that of a file of bindings. -/
def isBindingFile (location : String) : Bool :=
  isBetween "resources/appsync/" ".mapping.yml" location

theorem isBetween_append (beginning middle ending : String) :
    isBetween beginning ending (beginning ++ middle ++ ending) = true := by
  rw [isBetween, Bool.and_eq_true, List.isPrefixOf_iff_prefix, List.isSuffixOf_iff_suffix,
    String.toList_append, String.toList_append]
  exact ⟨⟨_, (List.append_assoc ..).symm⟩, ⟨_, rfl⟩⟩

/-- Texts that begin with another character do not have the beginning. -/
theorem isBetween_of_head {beginning ending text : String} {b c : Char}
    (hbeginning : beginning.toList.head? = some b) (htext : text.toList.head? = some c)
    (hother : b ≠ c) : isBetween beginning ending text = false := by
  rw [isBetween, Bool.and_eq_false_iff]
  refine Or.inl (Bool.eq_false_iff.2 fun hinitial => hother ?_)
  obtain ⟨rest, hrest⟩ := List.isPrefixOf_iff_prefix.1 hinitial
  rw [← hrest, List.head?_append, hbeginning] at htext
  exact Option.some.inj htext

/-- Texts that end otherwise do not have the ending. -/
theorem isBetween_of_ending {beginning ending other : String}
    (hother : ¬ ending.toList <:+ other.toList)
    (hlength : ending.toList.length ≤ other.toList.length)
    (stem : String) : isBetween beginning ending (stem ++ other) = false := by
  rw [isBetween, Bool.and_eq_false_iff]
  refine Or.inr (Bool.eq_false_iff.2 fun hsuffix => hother ?_)
  have hending := List.isSuffixOf_iff_suffix.1 hsuffix
  rw [String.toList_append] at hending
  exact List.suffix_of_suffix_length_le hending (List.suffix_append _ _) hlength

theorem regroup (beginning first point last ending : String) :
    beginning ++ first ++ point ++ last ++ ending
      = beginning ++ (first ++ point ++ last) ++ ending := by
  simp only [String.append_assoc]

theorem templateLocation_eq (name phase : String) :
    templateLocation name phase = "mapping-templates/" ++ (name ++ "." ++ phase) ++ ".vtl" :=
  regroup ..

theorem bindingLocation_eq (type field : String) :
    bindingLocation type field = bindingsLocation (type ++ "." ++ field) :=
  regroup ..

theorem isTemplateFile_templateLocation (name phase : String) :
    isTemplateFile (templateLocation name phase) = true := by
  rw [isTemplateFile, templateLocation_eq, isBetween_append]

theorem isBindingFile_bindingsLocation (name : String) :
    isBindingFile (bindingsLocation name) = true := by
  unfold isBindingFile bindingsLocation
  exact isBetween_append ..

/-- The location is that of a file of a resolver. -/
def isResolverFile (location : String) : Bool := isTemplateFile location || isBindingFile location

/-- The files of a place are templates, or there is one file of bindings. -/
theorem ResolverPlace.mem_locations {place : ResolverPlace} {location : String}
    (h : location ∈ place.locations) :
    (place.isTemplate = true ∧
        ∃ phase ∈ ["request", "response"], location = templateLocation place.stem phase) ∨
      place.isTemplate = false ∧ location = bindingsLocation place.stem := by
  cases place with
  | resolver type field =>
    obtain ⟨phase, hphase, rfl⟩ := List.mem_map.1 h
    exact Or.inl ⟨rfl, phase, hphase, rfl⟩
  | step name =>
    obtain ⟨phase, hphase, rfl⟩ := List.mem_map.1 h
    exact Or.inl ⟨rfl, phase, hphase, rfl⟩
  | operations table => exact Or.inr ⟨rfl, List.mem_singleton.1 h⟩
  | binding type field =>
    exact Or.inr ⟨rfl, (List.mem_singleton.1 h).trans (bindingLocation_eq type field)⟩

theorem isResolverFile_of_mem_locations {place : ResolverPlace} {location : String}
    (h : location ∈ place.locations) : isResolverFile location = true := by
  rw [isResolverFile, Bool.or_eq_true]
  rcases ResolverPlace.mem_locations h with ⟨-, phase, -, rfl⟩ | ⟨-, rfl⟩
  · exact Or.inl (isTemplateFile_templateLocation _ phase)
  · exact Or.inr (isBindingFile_bindingsLocation _)

theorem not_isResolverFile_schema (name : String) : isResolverFile ("schema/" ++ name) = false := by
  have hhead : ("schema/" ++ name).toList.head? = some 's' := head_append (by decide) name
  rw [isResolverFile, isTemplateFile, isBindingFile,
    isBetween_of_head (b := 'm') (by decide) hhead (by decide),
    isBetween_of_head (b := 'r') (by decide) hhead (by decide)]
  rfl

theorem not_isResolverFile_table (name : String) : isResolverFile (tableLocation name) = false := by
  have hhead : (tableLocation name).toList.head? = some 'r' :=
    head_append (head_append (by decide) name) _
  rw [isResolverFile, isTemplateFile, isBindingFile,
    isBetween_of_head (b := 'm') (by decide) hhead (by decide)]
  exact isBetween_of_ending (by decide) (by decide) _

theorem not_isResolverFile_steps (name : String) : isResolverFile (stepsLocation name) = false := by
  have hhead : (stepsLocation name).toList.head? = some 'r' :=
    head_append (head_append (by decide) name) _
  rw [isResolverFile, isTemplateFile, isBindingFile,
    isBetween_of_head (b := 'm') (by decide) hhead (by decide)]
  exact isBetween_of_ending (by decide) (by decide) _

/-! ### What a file is for

A stem is the type, a point and the field.  The first point of it is the one that was put there,
since the name of the type has none; so the stem gives the type and the field back
(`eq_of_point`).
-/

/-- What stands between beginnings and endings of one sort is the same in the same text. -/
theorem eq_of_endings {beginning name name' ending ending' : String}
    (hendings : ending.toList <:+ ending'.toList → ending = ending')
    (hendings' : ending'.toList <:+ ending.toList → ending = ending')
    (h : beginning ++ name ++ ending = beginning ++ name' ++ ending') : name = name' := by
  have htext : (beginning ++ name).toList ++ ending.toList
      = (beginning ++ name').toList ++ ending'.toList := by
    rw [← String.toList_append, ← String.toList_append, h]
  have hsame : ending = ending' := by
    rcases List.suffix_or_suffix_of_suffix (List.suffix_append _ ending.toList)
      (htext ▸ List.suffix_append _ ending'.toList) with hshort | hshort
    · exact hendings hshort
    · exact hendings' hshort
  rw [hsame, String.append_left_inj, String.append_right_inj] at h
  exact h

/-- A text without points is told from what follows its first point. -/
theorem eq_of_point {first first' last last' : String} (hfirst : '.' ∉ first.toList)
    (hfirst' : '.' ∉ first'.toList) (h : first ++ "." ++ last = first' ++ "." ++ last') :
    first = first' ∧ last = last' := by
  have hbefore : ∀ s t : String, '.' ∉ s.toList →
      (s ++ "." ++ t).toList.takeWhile (· ≠ '.') = s.toList := by
    intro s t hs
    have hnone : ∀ c ∈ s.toList, decide (c ≠ '.') = true := fun c hc =>
      decide_eq_true fun hpoint => hs (hpoint ▸ hc)
    rw [String.toList_append, String.toList_append, List.append_assoc,
      List.takeWhile_append_of_pos hnone]
    simp
  have hsame : first = first' := String.toList_injective <| by
    rw [← hbefore first last hfirst, h, hbefore first' last' hfirst']
  rw [hsame, String.append_right_inj] at h
  exact ⟨hsame, h⟩

/-- The name of a template says for what it is. -/
theorem stem_of_templateLocation {stem stem' phase phase' : String}
    (hphase : phase ∈ ["request", "response"]) (hphase' : phase' ∈ ["request", "response"])
    (h : templateLocation stem phase = templateLocation stem' phase') : stem = stem' := by
  have hendings : ∀ p ∈ ["request", "response"], ∀ q ∈ ["request", "response"],
      ("." ++ p ++ ".vtl").toList <:+ ("." ++ q ++ ".vtl").toList →
        "." ++ p ++ ".vtl" = "." ++ q ++ ".vtl" := by decide
  have hparts : ∀ name phase, templateLocation name phase
      = "mapping-templates/" ++ name ++ ("." ++ phase ++ ".vtl") := by
    intro name phase
    unfold templateLocation
    simp only [String.append_assoc]
  rw [hparts, hparts] at h
  exact eq_of_endings (hendings _ hphase _ hphase')
    (fun hsuffix => (hendings _ hphase' _ hphase hsuffix).symm) h

theorem not_plain_stem {type field name : String} (hname : '.' ∉ name.toList) :
    type ++ "." ++ field ≠ name := by
  rintro rfl
  simp at hname

/-- What is particular in the names says what files of one sort are for. -/
theorem ResolverPlace.eq_of_stem {p q : ResolverPlace} (hp : p.IsPlain) (hq : q.IsPlain)
    (hsort : p.isTemplate = q.isTemplate) (h : p.stem = q.stem) : p = q := by
  cases p <;> cases q <;> try cases hsort
  case resolver.resolver | binding.binding =>
    obtain ⟨rfl, rfl⟩ := eq_of_point hp hq h
    rfl
  case step.step | operations.operations =>
    cases h
    rfl
  case resolver.step | binding.operations => exact absurd h (not_plain_stem hq)
  case step.resolver | operations.binding => exact absurd h.symm (not_plain_stem hp)

/-- **A file is for one place**: two plain places (`ResolverPlace.IsPlain`) with a location in
common are the same. -/
theorem ResolverPlace.eq_of_mem_locations {p q : ResolverPlace} (hp : p.IsPlain) (hq : q.IsPlain)
    {location : String} (h : location ∈ p.locations) (h' : location ∈ q.locations) : p = q := by
  have htemplate : ∀ name phase, (templateLocation name phase).toList.head? = some 'm' :=
    fun name phase => head_append (head_append (head_append
      (head_append (by decide) name) _) phase) _
  have hbinding : ∀ name, (bindingsLocation name).toList.head? = some 'r' :=
    fun name => head_append (head_append (by decide) name) _
  have hapart : ∀ name phase other, templateLocation name phase ≠ bindingsLocation other := by
    intro name phase other hsame
    have hhead := htemplate name phase
    rw [hsame, hbinding] at hhead
    exact absurd hhead (by decide)
  rcases mem_locations h with ⟨hsort, phase, hphase, rfl⟩ | ⟨hsort, rfl⟩ <;>
    rcases mem_locations h' with ⟨hsort', phase', hphase', hsame⟩ | ⟨hsort', hsame⟩
  · exact eq_of_stem hp hq (hsort.trans hsort'.symm) (stem_of_templateLocation hphase hphase' hsame)
  · exact (hapart _ _ _ hsame).elim
  · exact (hapart _ _ _ hsame.symm).elim
  · exact eq_of_stem hp hq (hsort.trans hsort'.symm)
      (eq_of_endings (fun _ => rfl) (fun _ => rfl) hsame)

theorem ResolverPlace.exists_mem_locations (p : ResolverPlace) :
    ∃ location, location ∈ p.locations := by
  cases p <;> exact ⟨_, List.mem_cons_self⟩

theorem ResolverPlace.nodup_locations (p : ResolverPlace) : p.locations.Nodup := by
  have hpair : ∀ name, (["request", "response"].map (templateLocation name)).Nodup := by
    intro name
    exact List.Nodup.map (fun _ _ hsame => eq_of_endings (fun _ => rfl) (fun _ => rfl) hsame)
      (by decide)
  cases p with
  | resolver type field => exact hpair _
  | step name => exact hpair _
  | operations table => exact List.nodup_singleton _
  | binding type field => exact List.nodup_singleton _

/-- The files of places are all apart just if the places are. -/
theorem ResolverPlace.nodup_flatMap_locations {ps : List ResolverPlace}
    (hplain : ∀ p ∈ ps, p.IsPlain) :
    (ps.flatMap ResolverPlace.locations).Nodup ↔ ps.Nodup := by
  rw [List.nodup_flatMap, List.nodup_iff_pairwise_ne (l := ps)]
  refine (and_iff_right fun p _ => p.nodup_locations).trans (List.Pairwise.iff_of_mem ?_)
  intro p q hp hq
  constructor
  · rintro hapart rfl
    obtain ⟨location, hlocation⟩ := p.exists_mem_locations
    exact hapart hlocation hlocation
  · intro hne location h h'
    exact hne (eq_of_mem_locations (hplain p hp) (hplain q hq) h h')

/-! ### Sorts of places -/

namespace ResolverPlace

/-- The type and the field that templates are for. -/
def resolver? : ResolverPlace → Option (String × String)
  | resolver type field => some (type, field)
  | _ => none

/-- The type and the field that a binding is filed under. -/
def binding? : ResolverPlace → Option (String × String)
  | binding type field => some (type, field)
  | _ => none

/-- The step that templates are for. -/
def step? : ResolverPlace → Option String
  | step name => some name
  | _ => none

/-- The table whose operations are bound. -/
def operations? : ResolverPlace → Option String
  | operations table => some table
  | _ => none

/-- Places are apart just if those of each sort are. -/
theorem nodup_iff {ps : List ResolverPlace} :
    ps.Nodup ↔ ((ps.filterMap resolver?).Nodup ∧ (ps.filterMap binding?).Nodup) ∧
      (ps.filterMap step?).Nodup ∧ (ps.filterMap operations?).Nodup := by
  simp only [List.nodup_iff_pairwise_ne, List.pairwise_filterMap, ← List.pairwise_and_iff]
  refine List.Pairwise.iff fun p q => ?_
  cases p <;> cases q <;> simp [resolver?, binding?, step?, operations?]

end ResolverPlace

/-! ### What is emitted

The files of resolvers are filtered out of the emission, part by part, in the order of the parts.
-/

/-- The files of resolvers that fragments are placed in, in order. -/
def resolverFiles (fs : List Fragment) : List String :=
  (fs.map (·.location)).filter isResolverFile

@[simp] theorem resolverFiles_nil : resolverFiles [] = [] := rfl

theorem resolverFiles_cons (f : Fragment) (fs : List Fragment) :
    resolverFiles (f :: fs)
      = if isResolverFile f.location then f.location :: resolverFiles fs else resolverFiles fs := by
  unfold resolverFiles
  rw [List.map_cons, List.filter_cons]

@[simp] theorem resolverFiles_append (fs gs : List Fragment) :
    resolverFiles (fs ++ gs) = resolverFiles fs ++ resolverFiles gs := by
  rw [resolverFiles, List.map_append, List.filter_append]
  rfl

theorem resolverFiles_flatten (parts : List (List Fragment)) :
    resolverFiles parts.flatten = parts.flatMap resolverFiles := by
  induction parts with
  | nil => rfl
  | cons fs parts ih => rw [List.flatten_cons, resolverFiles_append, ih, List.flatMap_cons]

theorem resolverFiles_eq_nil {fs : List Fragment}
    (h : ∀ f ∈ fs, isResolverFile f.location = false) : resolverFiles fs = [] := by
  refine List.filter_eq_nil_iff.2 fun location hlocation => ?_
  obtain ⟨f, hf, rfl⟩ := List.mem_map.1 hlocation
  rw [h f hf]
  exact Bool.false_ne_true

theorem resolverFiles_templatePair (name : String) (request response : Resolver.Template)
    (replaceable : Bool) : resolverFiles (templatePair name request response replaceable)
      = ["request", "response"].map (templateLocation name) := by
  have hfile : ∀ phase, isResolverFile (templateLocation name phase) = true := fun phase => by
    rw [isResolverFile, isTemplateFile_templateLocation, Bool.true_or]
  simp only [templatePair, resolverFiles_cons, Fragment.ofText, hfile, if_true, resolverFiles_nil,
    List.map_cons, List.map_nil]

/-- A binding of a field is placed in a file of its own. -/
theorem resolverFiles_binding (type field : String) (tree : Tree) (fs : List Fragment) :
    resolverFiles (Fragment.ofTree (bindingLocation type field) tree :: fs)
      = (ResolverPlace.binding type field).locations ++ resolverFiles fs := by
  have hfile : isResolverFile (bindingLocation type field) = true :=
    isResolverFile_of_mem_locations (show _ ∈ (ResolverPlace.binding type field).locations from
      List.mem_singleton_self _)
  rw [resolverFiles_cons]
  exact if_pos hfile

/-- Edits of the published schema are placed in no file of a resolver. -/
theorem resolverFiles_edits (c : Catalog) (edits : List Sdl.Edit) :
    resolverFiles (edits.map (Fragment.ofEdit c.publishedLocation)) = [] := by
  refine resolverFiles_eq_nil fun f hf => ?_
  obtain ⟨e, -, rfl⟩ := List.mem_map.1 hf
  exact not_isResolverFile_schema c.schemaName

namespace Catalog

variable {c : Catalog} {t : Table}

/-- The places that one part of a table asks for. -/
def partPlaces (t : Table) : TablePart → List ResolverPlace
  | .storage => []
  | .operations =>
    .operations t.name :: .resolver "Query" (getName t) :: .resolver "Query" (listName t)
      :: mutations.map (fun action => .resolver "Mutation" (mutationName t action))
      ++ if t.uniqueFields.isEmpty then []
        else [readStep t, writeStep t .update, writeStep t .delete].map .step
  | .query key => [.binding t.name (queryName key), .resolver "Query" (queryName key)]
  | .relation r => [.binding t.name r.field, .resolver t.name r.field]

/-- The places that a binding of a field asks for. -/
def bindingPlaces : Binding → List ResolverPlace
  | .function type field _ => [.binding type field, .resolver type field]
  | .foreignInput .. => []

/-- The places that are asked for, in the order of the fragments. -/
def places (c : Catalog) : List ResolverPlace :=
  c.tables.flatMap (fun t => t.parts.flatMap (partPlaces t)) ++ c.bindings.flatMap bindingPlaces

theorem resolverFiles_storage {fs : List Fragment} (h : storageFragments t = .ok fs) :
    resolverFiles fs = [] := by
  have hfile := not_isResolverFile_table t.name
  unfold storageFragments at h
  obtain ⟨base, -, h⟩ := Outcome.of_bind_eq_ok h
  obtain ⟨others, -, h⟩ := Outcome.of_bind_eq_ok h
  obtain ⟨definitions, hdefinitions, h⟩ := Outcome.of_bind_eq_ok h
  obtain ⟨indexes, -, h⟩ := Outcome.of_bind_eq_ok h
  cases h
  refine resolverFiles_eq_nil fun f hf => ?_
  simp only [List.cons_append, List.mem_cons, List.mem_append, List.mem_map] at hf
  rcases hf with rfl | hf | ⟨i, -, rfl⟩
  · exact hfile
  · obtain ⟨name, -, hname⟩ := Outcome.exists_of_mem_mapM hdefinitions hf
    obtain ⟨definition, -, hname⟩ := Outcome.of_bind_eq_ok hname
    cases hname
    exact hfile
  · exact hfile

/-- The templates of the operations of a table. -/
theorem resolverFiles_operationTemplates {fs : List Fragment} (h : operationTemplates t = .ok fs) :
    (ResolverPlace.operations t.name).locations ++ resolverFiles fs
      = (partPlaces t .operations).flatMap ResolverPlace.locations := by
  unfold operationTemplates at h
  obtain ⟨isGenerated, -, h⟩ := Outcome.of_bind_eq_ok h
  cases h
  have hsteps : ∀ tree, resolverFiles [Fragment.ofTree (stepsLocation t.name) tree] = [] := by
    intro tree
    rw [resolverFiles_cons, if_neg (by exact ne_true_of_eq_false (not_isResolverFile_steps t.name))]
    rfl
  unfold partPlaces
  cases t.uniqueFields.isEmpty with
  | true =>
    simp only [fieldTemplates, directMutations, resolverFiles_append, resolverFiles_templatePair,
      if_true, List.append_assoc]
    rfl
  | false =>
    simp only [fieldTemplates, steppedMutations, resolverFiles_append, resolverFiles_templatePair,
      List.flatMap_cons, List.flatMap_nil, hsteps, Bool.false_eq_true, if_false, List.append_assoc]
    rfl

/-- The files of one part of a table. -/
theorem resolverFiles_part {part : TablePart} {fs : List Fragment}
    (h : (c.partFragments t part).outcome = .ok fs) :
    resolverFiles fs = (partPlaces t part).flatMap ResolverPlace.locations := by
  have hschema : ∀ name text gs, resolverFiles (Fragment.ofText (schemaLocation name) text :: gs)
      = resolverFiles gs := by
    intro name text gs
    have hother : isResolverFile (schemaLocation name) = false := by
      rw [schemaLocation, String.append_assoc, not_isResolverFile_schema]
    rw [resolverFiles_cons]
    exact if_neg (ne_true_of_eq_false hother)
  cases part with
  | storage => exact resolverFiles_storage h
  | operations =>
    simp only [partFragments, operationFragments, Report.outcome_bind, Report.outcome_lift] at h
    obtain ⟨schema, -, h⟩ := Outcome.of_bind_eq_ok h
    obtain ⟨templates, htemplates, h⟩ := Outcome.of_bind_eq_ok h
    cases h
    have hbindings : isResolverFile (bindingsLocation t.name) = true :=
      isResolverFile_of_mem_locations (show _ ∈ (ResolverPlace.operations t.name).locations from
        List.mem_singleton_self _)
    rw [List.cons_append, hschema, resolverFiles_append, typeEdits_eq, resolverFiles_edits,
      List.nil_append, resolverFiles_cons, ← resolverFiles_operationTemplates htemplates]
    exact if_pos hbindings
  | query key =>
    simp only [partFragments, Report.outcome_lift, queryFragments] at h
    obtain ⟨schema, -, h⟩ := Outcome.of_bind_eq_ok h
    cases h
    simp only [List.cons_append, List.nil_append, hschema, resolverFiles_binding, fieldTemplates,
      resolverFiles_templatePair]
    rfl
  | relation r =>
    simp only [partFragments, Report.outcome_pure, Except.ok.injEq] at h
    subst h
    have hedits : ∀ (isAdded : Bool) (edit : Sdl.Edit), resolverFiles
        (if isAdded = true then [Fragment.ofEdit c.publishedLocation edit] else []) = [] := by
      intro isAdded edit
      cases isAdded with
      | true => exact resolverFiles_edits c [edit]
      | false => rfl
    rw [relationFragments, List.cons_append, resolverFiles_binding, resolverFiles_append,
      resolverFiles_templatePair, hedits]
    rfl

theorem resolverFiles_bindings (b : Binding) :
    resolverFiles (bindingFragments c b) = (bindingPlaces b).flatMap ResolverPlace.locations := by
  cases b with
  | function type field source =>
    rw [bindingFragments, functionFragments, List.cons_append, resolverFiles_binding,
      resolverFiles_append, fieldTemplates, resolverFiles_templatePair]
    split
    · rfl
    · rw [show resolverFiles [Fragment.ofEdit c.publishedLocation _] = [] from
        resolverFiles_edits c [_]]
      rfl
  | foreignInput type field foreignKey isCondition => exact resolverFiles_edits c [_]

/-- **The files of resolvers are those of the places that are asked for, one after the other.** -/
theorem resolverFiles_emit {fs : List Fragment} (h : c.emit.outcome = .ok fs) :
    resolverFiles fs = c.places.flatMap ResolverPlace.locations := by
  simp only [emit, Report.outcome_bind, Report.outcome_mapM, Report.outcome_lift] at h
  obtain ⟨tables, htables, h⟩ := Outcome.of_bind_eq_ok h
  obtain ⟨shared, hshared, h⟩ := Outcome.of_bind_eq_ok h
  have htable : ∀ t ∈ c.tables, ∀ gs, (c.tableFragments t).outcome = .ok gs →
      resolverFiles gs = (t.parts.flatMap (partPlaces t)).flatMap ResolverPlace.locations := by
    intro t _ gs hfragments
    rw [tableFragments, Report.outcome_map, Report.outcome_mapM] at hfragments
    obtain ⟨parts, hparts, hflat⟩ := Outcome.of_bind_eq_ok hfragments
    cases hflat
    rw [resolverFiles_flatten, List.flatMap_assoc]
    exact Outcome.flatMap_of_mapM_eq_ok (fun part _ hs hpart => resolverFiles_part hpart) hparts
  have hof : resolverFiles shared = [] := by
    unfold sharedFragments at hshared
    split at hshared
    · cases hshared
      rfl
    · obtain ⟨schema, -, rfl⟩ := Outcome.of_map_eq_ok hshared
      exact resolverFiles_eq_nil fun f hf => by
        rw [List.mem_singleton.1 hf]
        exact not_isResolverFile_schema "root.graphql"
  have hall : resolverFiles (tables.flatten ++ c.bindings.flatMap (bindingFragments c) ++ shared
      ++ stripFragments c) = c.places.flatMap ResolverPlace.locations := by
    have hbindings : resolverFiles (c.bindings.flatMap (bindingFragments c))
        = (c.bindings.flatMap bindingPlaces).flatMap ResolverPlace.locations := by
      rw [List.flatMap_def, resolverFiles_flatten, List.flatMap_map, List.flatMap_assoc]
      exact congrArg (List.flatMap · c.bindings) (funext resolverFiles_bindings)
    have hstrip : resolverFiles (stripFragments c) = [] := resolverFiles_edits c (stripEdits c)
    rw [resolverFiles_append, resolverFiles_append, resolverFiles_append, resolverFiles_flatten,
      Outcome.flatMap_of_mapM_eq_ok htable htables, hbindings, hof, hstrip, List.append_nil,
      List.append_nil, places, List.flatMap_append]
    exact congrArg (· ++ _) List.flatMap_assoc.symm
  split at h
  · cases h
    have hseed : isResolverFile c.seed.location = false := not_isResolverFile_schema c.schemaName
    rw [resolverFiles_cons, if_neg (ne_true_of_eq_false hseed), hall]
  · cases h
    exact hall

end Catalog

end SchemaLoom
