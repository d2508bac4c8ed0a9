/-
Generated documents refer to types that are there.

What a compilation generates refers to scalars of the language, to types that are generated with
it, and to types that its document declares or refers to.  There are two exceptions.  An object
type of which nothing can be written gets no mirror, but inputs refer to the mirror all the same
(`IsUnwritten`).  And two relations from fields of one name are told apart by this name only, so
that one which leads to no table counts as leading to one if the other does (`IsMistaken`).

The names that are known (`Compilation.Knows`), together with the exceptions, are a vocabulary of
the catalog, and so every generated document speaks within it.  Vocabularies are closed under
what generators ask of them, so no generator is taken apart here.
-/
import SchemaLoom.Proofs.Catalog.Emission
import SchemaLoom.Proofs.Catalog.Naming
import SchemaLoom.Proofs.Catalog.Settling
import SchemaLoom.Proofs.Surface.References

namespace SchemaLoom

open Artifact Surface

/-! ### What a document mentions

The names in a definition are those of the types of its fields and arguments, its own name apart.
-/

namespace Sdl

/-- The kinds of definitions that declare a type. -/
def typeKinds : List DefinitionKind := [.scalar, .object, .interface, .union, .enum, .input]

/-- The types that a definition of a schema refers to. -/
def Definition.references : Definition → List String
  | .object body | .interface body | .objectExtension body | .interfaceExtension body =>
    body.interfaces ++ body.fields.flatMap fun f => f.type.base :: f.arguments.map (·.type.base)
  | .input body | .inputExtension body => body.fields.map (·.type.base)
  | .union body | .unionExtension body => body.members
  | .schema body | .schemaExtension body => body.roots.map (·.2)
  | .directive body => body.arguments.map (·.type.base)
  | _ => []

/-- The document declares a type of the name `name` or refers to one. -/
def Document.Mentions (document : Document) (name : String) : Prop :=
  name ∈ document.namesOf typeKinds ∨ ∃ d ∈ document.definitions, name ∈ d.references

instance (document : Document) (name : String) : Decidable (document.Mentions name) :=
  inferInstanceAs (Decidable (_ ∨ ∃ d ∈ document.definitions, name ∈ d.references))

/-- The name of an object type is declared. -/
theorem Document.mentions_object {document : Document} {o : ObjectType}
    (h : o ∈ document.objects) : document.Mentions o.name := by
  refine Or.inl (List.mem_filterMap.2 ⟨.object o, List.mem_filter.2 ⟨mem_objects.1 h, ?_⟩, rfl⟩)
  show typeKinds.contains DefinitionKind.object = true
  decide

/-- The type of a field is referred to. -/
theorem Document.mentions_base {document : Document} {o : ObjectType} (h : o ∈ document.objects)
    {f : Field} (hf : f ∈ o.fields) {shape : Shape} (hshape : shapeOf f.type = .ok shape) :
    document.Mentions shape.base := by
  refine Or.inr ⟨_, mem_objects.1 h, List.mem_append_right _ (List.mem_flatMap.2 ⟨f, hf, ?_⟩)⟩
  rw [Catalog.base_of_shapeOf hshape]
  exact List.mem_cons_self

/-- A type of which the kind is known is declared. -/
theorem Document.mentions_of_kind {document : Document} {kinds : List DefinitionKind}
    (hkinds : kinds ⊆ typeKinds) {name : String} (h : name ∈ document.namesOf kinds) :
    document.Mentions name := by
  obtain ⟨d, hd, hname⟩ := List.mem_filterMap.1 h
  obtain ⟨hd, hkind⟩ := List.mem_filter.1 hd
  refine Or.inl (List.mem_filterMap.2 ⟨d, List.mem_filter.2 ⟨hd, ?_⟩, hname⟩)
  rw [List.contains_iff_mem] at hkind ⊢
  exact hkinds hkind

end Sdl

/-! ### What is known

Names are known if they are those of built-in scalars, if a generated document introduces them, or
if the source mentions them.  The exceptions are named: a mirror that has no fields is not written
(`IsUnwritten`), and a relation may lead to what is no table (`IsMistaken`).
-/

namespace Catalog

/-- The types to which generated documents and rewritten relations refer. -/
inductive Refers (c : Catalog) : String → Prop where
  | document {location : String} {ds : List Declaration} {d : Declaration} {name : String}
    (hdocument : c.Generates location ds) (hd : d ∈ ds) (hname : name ∈ d.references) :
    Refers c name
  /-- A relation to many is published as an operation that lists items. -/
  | relation {t : Table} {r : Relation} {name : String} (htable : t ∈ c.tables)
    (hrelation : r ∈ t.relations) (hknown : t.isResolvable r = true) (hmany : r.toMany = true)
    (hname : name ∈ (listedField r).references) : Refers c name

/-- The name `name` is that of the mirror of an object type of which nothing can be written. -/
def IsUnwritten (c : Catalog) (name : String) : Prop :=
  ∃ type o, name = type ++ "Input" ∧ c.category type = .object ∧ c.objectType? type = some o ∧
    ∀ f ∈ o.fields, ∃ shape, shapeOf f.type = .ok shape ∧
      (c.category shape.base = .model ∨ c.category shape.base = .opaqueType)

/-- The name `name` is due to a relation that leads to no table from a field of the same name as one
that does. -/
def IsMistaken (c : Catalog) (name : String) : Prop :=
  ∃ t ∈ c.tables, ∃ r ∈ t.relations, ∃ other ∈ t.relations, r.toMany = true ∧
    other.field = r.field ∧ c.table? r.target = none ∧ (c.table? other.target).isSome = true ∧
    (name = connectionName r.target ∨ name = filterName r.target)

end Catalog

/-- The types that are there for what a compilation generates. -/
inductive Compilation.Knows (compilation : Compilation)
    (document : Sdl.Document) : String → Prop where
  | builtin {name : String} (hname : name ∈ builtinScalars) : Knows compilation document name
  | generated {location name : String} {ds : List Declaration} {d : Declaration}
    (hdocument : compilation.catalog.Generates location ds)
    (hemitted : Fragment.ofText location (renderDocument ds) ∈ compilation.fragments) (hd : d ∈ ds)
    (hname : d.introduces? = some name) : Knows compilation document name
  | source {name : String} (hname : document.Mentions name) : Knows compilation document name

/-! ### Generated documents

Every generated document stays within a vocabulary, and each word of it is known for one of the
reasons above.
-/

variable {schemaName : String} {scope : Sdl.Scope} {document : Sdl.Document}
  {compilation : Compilation}

namespace Compilation

section Emitted

variable (hemit : compilation.catalog.emit.outcome = .ok compilation.fragments)

include hemit

/-- What a generated document introduces is known. -/
theorem Knows.of_generates {location : String} {ds : List Declaration}
    (hdocument : compilation.catalog.Generates location ds) {name : String}
    (hname : Introduces ds name) : compilation.Knows document name := by
  obtain ⟨d, hd, hname⟩ := hname
  exact .generated hdocument (Catalog.mem_of_generates hemit hdocument) hd hname

/-- What the names of a table and of its types stand for is known. -/
theorem Knows.of_table {t : Table} (ht : t ∈ compilation.catalog.tables)
    (hdefinition : t.definition ∈ document.objects) :
    ∀ name ∈ namesOf t, compilation.Knows document name := by
  intro name hname
  obtain ⟨ds, hdeclarations, -⟩ := Catalog.exists_operations_of_emit hemit ht
  rcases introduces_operationDeclarations hdeclarations hname with rfl | hintroduced
  · exact .source (Sdl.Document.mentions_object hdefinition)
  · exact .of_generates hemit (.operations ht hdeclarations) hintroduced

end Emitted

end Compilation

/-- Nothing can be written of a type that is left without a mirror. -/
theorem Catalog.isUnwritten_of_mirror? {c : Catalog} {type : String}
    (hcategory : c.category type = .object) (hmirror : mirror? c type = .ok none) :
    c.IsUnwritten (type ++ "Input") := by
  obtain ⟨o, hobject⟩ := Option.isSome_iff_exists.1 (isObject_of_category hcategory).2
  refine ⟨type, o, rfl, hcategory, hobject, fun f hf => ?_⟩
  exact of_mirrorEntry_eq_none (of_mirror?_eq_none hmirror hobject f hf)

/-- **What is known, and the mirrors that are left out, are a vocabulary of the catalog**
(`Vocabulary`), so what was shown of the builders for any vocabulary holds of it. -/
theorem vocabulary_of_compileDocument
    (hcompiles : (compileDocument schemaName scope document).outcome = .ok compilation)
    (hsome : compilation.catalog.tables ≠ []) {used : TypesInUse}
    (huses : typesInUse compilation.catalog = .ok used) :
    Vocabulary compilation.catalog used fun name =>
      compilation.Knows document name ∨ compilation.catalog.IsUnwritten name := by
  obtain ⟨hgather, hemit⟩ := of_compileDocument hcompiles
  obtain ⟨hrooted, hdocument, -⟩ := Catalog.rooted_of_gather hgather
  obtain ⟨shared, hshared, -⟩ := Catalog.exists_shared_of_emit hemit hsome
  have hgenerates := Catalog.Generates.shared hsome hshared
  have hused := covers_of_typesInUse huses
  have hdefinition : ∀ t ∈ compilation.catalog.tables, t.definition ∈ document.objects := by
    intro t ht
    have hmem := (hrooted.mem_declarations ht).1
    rw [hdocument, Sdl.Document.mem_declarations] at hmem
    exact Sdl.Document.mem_objects.2 hmem
  constructor
  case builtin =>
    intro name hname
    exact Or.inl (.builtin hname)
  case common =>
    intro name hname
    exact Or.inl (.of_generates hemit hgenerates (introduces_common hshared hname))
  case tables =>
    intro t ht name hname
    exact Or.inl (.of_table hemit ht (hdefinition t ht) name hname)
  case fields =>
    intro t ht f hf shape hshape
    exact Or.inl (.source (Sdl.Document.mentions_base (hdefinition t ht) hf hshape))
  case members =>
    intro type o hobject f hf shape hshape
    have hmem : o ∈ document.objects := hdocument ▸ List.mem_of_find?_eq_some hobject
    exact Or.inl (.source (Sdl.Document.mentions_base hmem hf hshape))
  case enums =>
    intro type henum
    have hdeclared := category_spec compilation.catalog type
    rw [henum] at hdeclared
    have hmem : type ∈ document.namesOf [.enum] := hdocument ▸ List.contains_iff_mem.1 hdeclared
    exact Or.inl (.source (Sdl.Document.mentions_of_kind (by decide) hmem))
  case filters =>
    intro type htype
    exact Or.inl (.of_generates hemit hgenerates (introduces_filter hshared huses htype))
  case mirrors =>
    intro type htype
    rcases introduces_mirror hshared huses htype with hintroduced | hnone
    · exact Or.inl (.of_generates hemit hgenerates hintroduced)
    · exact Or.inr (Catalog.isUnwritten_of_mirror? (hused.objects type htype).1 hnone)

/-! ### Relations -/

/-- **A relation that counts as leading to a table does so, or is mistaken for another.** -/
theorem isMistaken_of_table?
    (hgather : (Catalog.gather { document, schemaName, scope }).outcome = .ok compilation.catalog)
    {t : Table} (ht : t ∈ compilation.catalog.tables) {r : Relation} (hr : r ∈ t.relations)
    (hmany : r.toMany = true) (hknown : t.isResolvable r = true)
    (hnone : compilation.catalog.table? r.target = none) {name : String}
    (hname : name = connectionName r.target ∨ name = filterName r.target) :
    compilation.catalog.IsMistaken name := by
  obtain ⟨before, hbefore, hnodup, hclassify⟩ := Catalog.exists_collected_of_gather hgather
  rw [hclassify] at ht
  obtain ⟨other, hother, hfield, hleads⟩ :=
    Catalog.leadsToTable_of_classify hnodup (Catalog.targetKeys_of_collected hbefore) ht hknown
  rw [← hclassify] at ht hleads
  exact ⟨t, ht, r, hr, other, hother, hmany, hfield, hnone, hleads, hname⟩

example : Outcome.Holds (Sdl.Document.parse
    "type User @model \x7b has: [Post] @connection has: [Note] @connection \x7d
    type Post @model \x7b id: ID \x7d") fun document =>
      Outcome.Holds (compileDocument "schema.graphql" none document).outcome fun compilation =>
        ∃ t ∈ compilation.catalog.tables, ∃ r ∈ t.relations, r.toMany = true ∧
          t.isResolvable r = true ∧ r.target = "Note" := by
  decide +kernel

/-! ### All that is generated -/

/-- Where there are tables, the vocabulary of what is known is that of the types in use. -/
theorem exists_vocabulary
    (hcompiles : (compileDocument schemaName scope document).outcome = .ok compilation)
    (hsome : compilation.catalog.tables ≠ []) : ∃ used,
      typesInUse compilation.catalog = .ok used ∧ Vocabulary compilation.catalog used
        fun name => compilation.Knows document name ∨ compilation.catalog.IsUnwritten name := by
  obtain ⟨-, hemit⟩ := of_compileDocument hcompiles
  obtain ⟨shared, hshared, -⟩ := Catalog.exists_shared_of_emit hemit hsome
  obtain ⟨used, huses, -⟩ := mem_sharedDeclarations hshared
  exact ⟨used, huses, vocabulary_of_compileDocument hcompiles hsome huses⟩

/-- Generated documents speak of what is known and of mirrors that are left out. -/
theorem speaksWithin_of_generates
    (hcompiles : (compileDocument schemaName scope document).outcome = .ok compilation)
    {location : String} {ds : List Declaration}
    (hdocument : compilation.catalog.Generates location ds) :
    SpeaksWithin
      (fun name => compilation.Knows document name ∨ compilation.catalog.IsUnwritten name) ds := by
  have hsome : compilation.catalog.tables ≠ [] := by
    cases hdocument with
    | operations htable _ => exact List.ne_nil_of_mem htable
    | query htable _ _ => exact List.ne_nil_of_mem htable
    | shared hsome _ => exact hsome
  obtain ⟨used, huses, hvocabulary⟩ := exists_vocabulary hcompiles hsome
  cases hdocument with
  | operations htable hdeclarations =>
    exact hvocabulary.operationDeclarations (covers_of_typesInUse huses) htable hdeclarations
  | query htable hkey hdeclarations =>
    obtain ⟨-, hemit⟩ := of_compileDocument hcompiles
    intro d hd name hname
    rcases hvocabulary.queryDeclarations htable hdeclarations d hd name hname with hold | hbeside
    · exact hold
    · exact Or.inl (.of_generates hemit (.query htable hkey hdeclarations) hbeside)
  | shared _ hdeclarations => exact hvocabulary.sharedDeclarations huses hdeclarations

/-- **All types to which generated documents and rewritten relations refer are known
(`Compilation.Knows`), except for the mirrors of types of which nothing can be written and for what
mistaken relations refer to.** -/
theorem refers_known
    (hcompiles : (compileDocument schemaName scope document).outcome = .ok compilation)
    {name : String} (hrefers : compilation.catalog.Refers name) :
    compilation.Knows document name ∨ compilation.catalog.IsUnwritten name ∨
      compilation.catalog.IsMistaken name := by
  cases hrefers with
  | document hdocument hd hname =>
    rcases speaksWithin_of_generates hcompiles hdocument _ hd name hname with hknown | hunwritten
    · exact Or.inl hknown
    · exact Or.inr (Or.inl hunwritten)
  | relation htable hrelation hknown hmany hname =>
    obtain ⟨used, -, hvocabulary⟩ := exists_vocabulary hcompiles (List.ne_nil_of_mem htable)
    rcases hvocabulary.listedField hname with (hknown | hunwritten) | ⟨hnone, hnamed⟩
    · exact Or.inl hknown
    · exact Or.inr (Or.inl hunwritten)
    · have hgather := (of_compileDocument hcompiles).1
      exact Or.inr (Or.inr
        (isMistaken_of_table? hgather htable hrelation hmany hknown hnone hnamed))

/-- What no document introduces is not known, unless the language or the source knows it. -/
theorem Compilation.not_knows {name : String} (hbuiltin : name ∉ builtinScalars)
    (hsource : ¬ document.Mentions name)
    (htables : ∀ t ∈ compilation.catalog.tables, t.queryKeys = [] ∧
      Outcome.Holds (operationDeclarations compilation.catalog t) (¬ Introduces · name))
    (hshared : Outcome.Holds (sharedDeclarations compilation.catalog) (¬ Introduces · name)) :
    ¬ compilation.Knows document name := by
  intro hknown
  cases hknown with
  | builtin hname => exact hbuiltin hname
  | source hname => exact hsource hname
  | generated hdocument _ hd hname =>
    cases hdocument with
    | operations htable hdeclarations =>
      exact (htables _ htable).2.of_eq_ok hdeclarations ⟨_, hd, hname⟩
    | query htable hkey _ =>
      rw [(htables _ htable).1] at hkey
      cases hkey
    | shared _ hdeclarations =>
      exact hshared.of_eq_ok hdeclarations ⟨_, hd, hname⟩

/-- Posts with an object of which nothing can be written, since all that it has is its post. -/
def annotatedPosts : String :=
  "type Post @model \x7b meta: Meta \x7d type Meta \x7b post: Post \x7d"

/-- The inputs of annotated posts refer to a mirror that nothing declares. -/
theorem annotatedPosts_refers : ∃ document compilation,
    Sdl.Document.parse annotatedPosts = .ok document ∧
    (compileDocument "schema.graphql" none document).outcome = .ok compilation ∧
    compilation.catalog.Refers "MetaInput" ∧ ¬ compilation.Knows document "MetaInput" ∧
    compilation.catalog.IsUnwritten "MetaInput" := by
  have hfacts : Outcome.Holds (Sdl.Document.parse annotatedPosts) fun document =>
      Outcome.Holds (compileDocument "schema.graphql" none document).outcome fun compilation =>
        ¬ document.Mentions "MetaInput" ∧
        (∃ t ∈ compilation.catalog.tables,
          Outcome.Holds (operationDeclarations compilation.catalog t) fun ds =>
            ∃ d ∈ ds, "MetaInput" ∈ d.references) ∧
        (∀ t ∈ compilation.catalog.tables, t.relations = []) ∧
        (∀ t ∈ compilation.catalog.tables, t.queryKeys = [] ∧
          Outcome.Holds (operationDeclarations compilation.catalog t)
            (¬ Introduces · "MetaInput")) ∧
        Outcome.Holds (sharedDeclarations compilation.catalog) (¬ Introduces · "MetaInput") := by
    decide +kernel
  obtain ⟨document, hparse, compilation, hcompiles, hsource,
    ⟨t, ht, ds, hdeclarations, d, hd, hname⟩, hrelations, htables, hshared⟩ := hfacts
  have hrefers : compilation.catalog.Refers "MetaInput" :=
    .document (.operations ht hdeclarations) hd hname
  have hunknown : ¬ compilation.Knows document "MetaInput" :=
    Compilation.not_knows (by decide) hsource htables hshared
  refine ⟨document, compilation, hparse, hcompiles, hrefers, hunknown, ?_⟩
  rcases refers_known hcompiles hrefers with hknown | hunwritten | ⟨t, ht, r, hr, -⟩
  · exact absurd hknown hunknown
  · exact hunwritten
  · rw [hrelations t ht] at hr
    cases hr

end SchemaLoom
