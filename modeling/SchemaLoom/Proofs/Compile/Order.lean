/-
Documents whose declarations are in another order.

The same tables are gathered from them, with the same relations, and the same types are in use
(`SameTypes`).  So both compile or neither does, as long as the fields of a type can be told
apart: of several fields of one name only the first has to have a shape, and which of them a
table looks at may depend on the index that it keeps of two.

What the order does change are the implied indexes and the order in which foreign keys are
implied.  So tables are compared by what relations are resolved by (`Table.RelatesAs`), with what
is implied as a set; and a document compiles exactly if its tables can be gathered and the types
in use have shapes (`exists_compileDocument_iff`), which depends on nothing else.
-/
import SchemaLoom.Proofs.Catalog.Acceptance
import SchemaLoom.Proofs.Catalog.Locality

namespace SchemaLoom

open Surface
open Sdl (Document Scope)

/-! ### Types -/

namespace Catalog

variable {c c' : Catalog}

/-- The catalogs declare the same types and have tables with the same fields. -/
structure SameTypes (c c' : Catalog) : Prop where
  category : ∀ name, c.category name = c'.category name
  objectType : ∀ name, c.objectType? name = c'.objectType? name
  fields : ∀ t ∈ c.tables, ∃ t' ∈ c'.tables, plainFields t = plainFields t'

theorem SameTypes.inUse (h : c.SameTypes c') {name : String} (hused : InUse c name) :
    InUse c' name := by
  induction hused with
  | @field t f shape htable hfield hshape =>
    obtain ⟨t', htable', hfields⟩ := h.fields t htable
    exact .field htable' (hfields ▸ hfield) hshape
  | @through name o f shape _ hobject htype hfield hshape ih =>
    exact .through ih (h.category name ▸ hobject) (h.objectType name ▸ htype) hfield hshape

theorem SameTypes.usesShapes (h : c.SameTypes c') (huses : UsesShapes c') : UsesShapes c where
  fields t ht := by
    obtain ⟨t', ht', hfields⟩ := h.fields t ht
    rw [hfields]
    exact huses.fields t' ht'
  types name o hused hobject htype :=
    huses.types name o (h.inUse hused) (h.category name ▸ hobject) (h.objectType name ▸ htype)

theorem nodup_objects {document : Document}
    (htypes : (document.declarations.map (·.name)).Nodup) :
    (document.objects.map (·.name)).Nodup := by
  refine htypes.sublist ?_
  unfold Document.objects Document.declarations
  induction document.definitions with
  | nil => exact List.Sublist.refl _
  | cons d ds ih =>
    cases d with
    | object body => exact ih.cons_cons body.name
    | input body => exact ih.cons body.name
    | _ => exact ih

theorem declares_of_perm (hperm : c.document.definitions.Perm c'.document.definitions)
    (kinds : List Sdl.DefinitionKind) (name : String) :
    c.declares kinds name = c'.declares kinds name := by
  have hnames : (c.document.namesOf kinds).Perm (c'.document.namesOf kinds) :=
    (hperm.filter _).filterMap _
  unfold declares
  rw [Bool.eq_iff_iff, List.contains_iff_mem, List.contains_iff_mem, hnames.mem_iff]

theorem isSome_table? (hagrees : c.Agrees c') (name : String) :
    (c.table? name).isSome = (c'.table? name).isSome := by
  obtain ⟨hnone, hnone'⟩ | ⟨t, t', hsome, hsome', -⟩ := rel_cases (hagrees name)
  · rw [hnone, hnone']
  · rw [hsome, hsome']
    rfl

theorem exists_agrees (hagrees : c.Agrees c') (hnodup : c.tableNames.Nodup) {t : Table}
    (ht : t ∈ c.tables) : ∃ t' ∈ c'.tables, t.Agrees t' := by
  have htable := (table?_eq_some_iff hnodup).2 ⟨ht, rfl⟩
  obtain ⟨hnone, -⟩ | ⟨u, t', hsome, hsome', hsame⟩ := rel_cases (hagrees t.name)
  · rw [htable] at hnone
    cases hnone
  · rw [htable] at hsome
    cases hsome
    exact ⟨t', (mem_of_table? hsome').1, hsame⟩

theorem mem_tableNames_of_agrees (hagrees : c.Agrees c') (hnodup : c.tableNames.Nodup)
    {name : String}
    (hname : name ∈ c.tableNames) : name ∈ c'.tableNames := by
  obtain ⟨t, ht, rfl⟩ := List.mem_map.1 hname
  obtain ⟨t', ht', hsame⟩ := exists_agrees hagrees hnodup ht
  exact List.mem_map.2 ⟨t', ht', hsame.name.symm⟩

theorem sameTypes (hagrees : c.Agrees c') (hnodup : c.tableNames.Nodup)
    (hperm : c.document.definitions.Perm c'.document.definitions)
    (htypes : (c.document.declarations.map (·.name)).Nodup) : c.SameTypes c' where
  category name := by
    unfold category
    simp only [isSome_table? hagrees, declares_of_perm hperm]
  objectType name := find?_of_perm (nodup_objects htypes) (hperm.filterMap _) name
  fields t ht := by
    obtain ⟨t', ht', hsame⟩ := exists_agrees hagrees hnodup ht
    exact ⟨t', ht', hsame.congr plainFields fun _ => rfl⟩

end Catalog

/-! ### Documents

The tables that come of two orders agree, and what decides about success is the same for tables
that agree.
-/

/-- The relations of `t` and `t'` are the same and resolved by the same attributes, and the same
attributes are implied. -/
structure Table.RelatesAs (t t' : Table) : Prop where
  name : t.name = t'.name
  relations : t.relations = t'.relations
  foreignKey : ∀ r ∈ t.relations, t.foreignKey r = t'.foreignKey r
  myKey : ∀ r ∈ t.relations, t.myKey r = t'.myKey r
  yourKey : ∀ r ∈ t.relations, t.yourKey r = t'.yourKey r
  implied : ∀ key, key ∈ t.impliedForeignKeys ↔ key ∈ t'.impliedForeignKeys

theorem Table.Agrees.relatesAs {t t' : Table} (h : t.Agrees t') : t.RelatesAs t' where
  name := h.name
  relations := h.relations
  foreignKey r _ := h.congr (·.foreignKey r) fun _ => rfl
  myKey r _ := h.congr (·.myKey r) fun _ => rfl
  yourKey r _ := h.congr (·.yourKey r) fun _ => rfl
  implied := h.implied

variable {document document' : Document} {schemaName : String} {scope : Scope}

/-- A gathered catalog was classified. -/
theorem exists_before {c : Catalog}
    (h : (Catalog.gather { document, schemaName, scope }).outcome = .ok c) :
    ∃ before : Catalog, before.tableNames.Nodup ∧ c = before.classify.1 := by
  obtain ⟨before, -, hnodup, hsame⟩ := Catalog.exists_collected_of_gather h
  exact ⟨before, hnodup, hsame⟩

/-- **A document whose fields can be told apart compiles exactly if its tables can be gathered and
the types in use have shapes** (`UsesShapes`). -/
theorem exists_compileDocument_iff (htypes : (document.declarations.map (·.name)).Nodup)
    (hfields : Catalog.FieldsAreDistinct document) :
    (∃ x, (compileDocument schemaName scope document).outcome = .ok x) ↔
      ∃ c, (Catalog.gather { document, schemaName, scope }).outcome = .ok c ∧ UsesShapes c := by
  have hemit : ∀ c, (Catalog.gather { document, schemaName, scope }).outcome = .ok c →
      ((∃ fs, c.emit.outcome = .ok fs) ↔ UsesShapes c) := by
    intro c hgather
    obtain ⟨hrooted, hdocument, -, -⟩ := Catalog.rooted_of_gather hgather
    obtain ⟨before, hnodup, rfl⟩ := exists_before hgather
    refine Catalog.exists_emit_iff hrooted (hdocument ▸ htypes) (hdocument ▸ hfields) fun t ht => ?_
    exact Catalog.endsAreNamed_of_classify hnodup ht
  constructor
  · rintro ⟨x, hcompile⟩
    obtain ⟨hgather, hemitted⟩ := of_compileDocument hcompile
    exact ⟨x.catalog, hgather, (hemit x.catalog hgather).1 ⟨x.fragments, hemitted⟩⟩
  · rintro ⟨c, hgather, huses⟩
    obtain ⟨fs, hemitted⟩ := (hemit c hgather).2 huses
    refine ⟨⟨c, fs⟩, ?_⟩
    unfold compileDocument
    rw [Report.outcome_bind, hgather, Outcome.ok_bind, Report.outcome_bind, hemitted]
    rfl

/-- If a document in one order can be gathered to tables whose types have shapes, so it can in
another. -/
theorem usesShapes_of_perm (hperm : document.definitions.Perm document'.definitions)
    (htypes : (document.declarations.map (·.name)).Nodup)
    (htypes' : (document'.declarations.map (·.name)).Nodup)
    (h : ∃ c, (Catalog.gather { document, schemaName, scope }).outcome = .ok c ∧ UsesShapes c) :
    ∃ c, (Catalog.gather { document := document', schemaName, scope }).outcome = .ok c ∧
      UsesShapes c := by
  obtain ⟨c, hgather, huses⟩ := h
  have halike := Catalog.gathersAlike htypes (hperm.filterMap _) schemaName scope
  rw [hgather] at halike
  cases hgather' : (Catalog.gather { document := document', schemaName, scope }).outcome with
  | error fault =>
    rw [hgather'] at halike
    cases halike
  | ok c' =>
    rw [hgather'] at halike
    cases halike with
    | value hagrees =>
      obtain ⟨-, hdocument, -, -⟩ := Catalog.rooted_of_gather hgather
      obtain ⟨hrooted', hdocument', -, -⟩ := Catalog.rooted_of_gather hgather'
      have hsame : c'.SameTypes c := by
        refine Catalog.sameTypes (Catalog.equivalence_agrees.symm hagrees) hrooted'.tableNames ?_ ?_
        · rw [hdocument, hdocument']
          exact hperm.symm
        · rw [hdocument']
          exact htypes'
      exact ⟨c', rfl, hsame.usesShapes huses⟩

theorem fieldsAreDistinct_of_perm (hperm : document.definitions.Perm document'.definitions)
    (hfields : Catalog.FieldsAreDistinct document) : Catalog.FieldsAreDistinct document' :=
  fun o ho => hfields o ((hperm.filterMap _).mem_iff.2 ho)

/-- **Relations do not depend on the order in which types are declared.** If no two types share a
name, then the tables of a document in another order have the same relations, of the same kinds,
which are resolved by the same attributes, and the same attributes are implied (`Table.RelatesAs`).
And if no two fields of a type share a name, then a document compiles in one order exactly if it
does in another. -/
theorem compileDocument_reordered (schemaName : String) (scope : Scope)
    (hperm : document.definitions.Perm document'.definitions)
    (htypes : (document.declarations.map (·.name)).Nodup) :
    (Catalog.FieldsAreDistinct document →
      ((∃ x, (compileDocument schemaName scope document).outcome = .ok x) ↔
        ∃ x, (compileDocument schemaName scope document').outcome = .ok x)) ∧
    ∀ x x', (compileDocument schemaName scope document).outcome = .ok x →
      (compileDocument schemaName scope document').outcome = .ok x' →
      x.catalog.tableNames.Perm x'.catalog.tableNames ∧
        ∀ t ∈ x.catalog.tables, ∃ t' ∈ x'.catalog.tables, t.RelatesAs t' := by
  have hdeclarations : document.declarations.Perm document'.declarations := hperm.filterMap _
  have htypes' := (hdeclarations.map (·.name)).nodup_iff.1 htypes
  constructor
  · intro hfields
    rw [exists_compileDocument_iff htypes hfields,
      exists_compileDocument_iff htypes' (fieldsAreDistinct_of_perm hperm hfields)]
    exact ⟨usesShapes_of_perm hperm htypes htypes',
      usesShapes_of_perm hperm.symm htypes' htypes⟩
  · intro x x' hcompile hcompile'
    obtain ⟨hgather, -⟩ := of_compileDocument hcompile
    obtain ⟨hgather', -⟩ := of_compileDocument hcompile'
    obtain ⟨hrooted, -⟩ := Catalog.rooted_of_gather hgather
    obtain ⟨hrooted', -⟩ := Catalog.rooted_of_gather hgather'
    have halike := Catalog.gathersAlike htypes hdeclarations schemaName scope
    rw [hgather, hgather'] at halike
    cases halike with
    | value hagrees =>
      refine ⟨?_, fun t ht => ?_⟩
      · refine (List.perm_ext_iff_of_nodup hrooted.tableNames hrooted'.tableNames).2 fun name => ?_
        exact ⟨Catalog.mem_tableNames_of_agrees hagrees hrooted.tableNames,
          Catalog.mem_tableNames_of_agrees (Catalog.equivalence_agrees.symm hagrees)
            hrooted'.tableNames⟩
      · obtain ⟨t', ht', hsame⟩ := Catalog.exists_agrees hagrees hrooted.tableNames ht
        exact ⟨t', ht', hsame.relatesAs⟩

/-! ### Examples -/

/-- A field that is a relation of a name, if one is given, with a foreign key, if one is given. -/
def relationField (field : String) (type : Sdl.TypeRef) (name foreignKey : Option String) :
    Sdl.Field where
  description := none
  name := field
  arguments := []
  type
  directives := [⟨"connection",
    (name.map fun text => ("name", Sdl.Value.string text false)).toList
      ++ (foreignKey.map fun text => ("foreignKey", Sdl.Value.string text false)).toList⟩]

/-- Authors and their posts. -/
def authorsAndPosts : Document :=
  ⟨[tableOf "Author" [relationField "posts" (.list (.named "Post")) (some "P") (some "writer")],
    tableOf "Post" [relationField "author" (.named "Author") (some "P") none]]⟩

/-- Posts and their authors. -/
def postsAndAuthors : Document := ⟨authorsAndPosts.definitions.reverse⟩

instance (document : Document) : Decidable (Catalog.FieldsAreDistinct document) :=
  inferInstanceAs (Decidable (∀ o ∈ document.objects, (o.fields.map (·.name)).Nodup))

/-- Posts may be declared before their authors. -/
theorem authorsAndPosts_reordered :
    ∃ x x', (compileDocument "schema.graphql" none authorsAndPosts).outcome = .ok x ∧
      (compileDocument "schema.graphql" none postsAndAuthors).outcome = .ok x' ∧
      x.catalog.tables.length = 2 ∧ x.catalog.tableNames.Perm x'.catalog.tableNames ∧
      ∀ t ∈ x.catalog.tables, ∃ t' ∈ x'.catalog.tables, t.RelatesAs t' := by
  have hfacts : (authorsAndPosts.declarations.map (·.name)).Nodup ∧
      Catalog.FieldsAreDistinct authorsAndPosts ∧
      Outcome.Holds (compileDocument "schema.graphql" none authorsAndPosts).outcome
        (fun x => x.catalog.tables.length = 2) := by
    decide +kernel
  obtain ⟨htypes, hfields, x, hcompile, hlength⟩ := hfacts
  have hperm : authorsAndPosts.definitions.Perm postsAndAuthors.definitions :=
    (List.reverse_perm _).symm
  have hreordered := compileDocument_reordered "schema.graphql" none hperm htypes
  obtain ⟨x', hcompile'⟩ := (hreordered.1 hfields).1 ⟨x, hcompile⟩
  obtain ⟨hnames, htables⟩ := hreordered.2 x x' hcompile hcompile'
  exact ⟨x, x', hcompile, hcompile', hlength, hnames, htables⟩

/-- A table with two fields of one name, of which the first has a type without a shape. -/
def ambiguousTable : Sdl.Definition :=
  tableOf "U"
    [⟨none, "x", [], .list (.list (.named "Int")),
        [⟨"function", [("name", .string "f" false)]⟩]⟩,
      relationField "x" (.named "T") none none]

/-- A table with a relation to that one, which refers to an attribute there. -/
def referringTable (name key : String) : Sdl.Definition :=
  tableOf name [relationField "us" (.list (.named "U")) (some "P") (some key)]

/-- Two such tables, the first of which refers to the field whose name is taken twice. -/
def ambiguousField : Document :=
  ⟨[ambiguousTable, referringTable "T" "x", referringTable "S" "y"]⟩

/-- The same tables in another order. -/
def ambiguousFieldReordered : Document :=
  ⟨[ambiguousTable, referringTable "S" "y", referringTable "T" "x"]⟩

/-- If fields share a name, then a document may compile in one order only. -/
theorem ambiguousField_reordered :
    ambiguousField.definitions.Perm ambiguousFieldReordered.definitions ∧
      (ambiguousField.declarations.map (·.name)).Nodup ∧
      (∃ x, (compileDocument "schema.graphql" none ambiguousFieldReordered).outcome = .ok x) ∧
      ¬ ∃ x, (compileDocument "schema.graphql" none ambiguousField).outcome = .ok x := by
  have hfacts : (ambiguousField.declarations.map (·.name)).Nodup ∧
      Outcome.Holds (compileDocument "schema.graphql" none ambiguousFieldReordered).outcome
        (fun _ => True) ∧
      ¬ Outcome.Holds (compileDocument "schema.graphql" none ambiguousField).outcome
        (fun _ => True) := by
    decide +kernel
  obtain ⟨htypes, ⟨x, hcompile, -⟩, hfails⟩ := hfacts
  refine ⟨(List.Perm.swap _ _ []).cons _, htypes, ⟨x, hcompile⟩, ?_⟩
  rintro ⟨y, hcompile'⟩
  exact hfails ⟨y, hcompile', trivial⟩

end SchemaLoom
