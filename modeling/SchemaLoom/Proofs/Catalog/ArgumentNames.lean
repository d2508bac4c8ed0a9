/-
Declared arguments and arguments that are read.

The schema document of an operation and the template behind it are made apart from each other,
from one key or one relation.  They agree: a request reads the arguments that are declared for
it, all of them and no others (`Reader.Matches`), and a query by a composite key reads in every
operator the parts that the input of the key has (`ReadsParts`).

Reading is read off the text of the request, as the occurrences of references in it.  So texts of
directives that templates show as they are could spell further references: the name of a key, and
the name and the keys of a relation.  They are the only exception, and each statement lists its
own.

There is one theorem for each kind of reader, and `Compilation.ReadsDeclared` holds them
together.
-/
import SchemaLoom.Proofs.Catalog.Readers
import SchemaLoom.Proofs.Resolver.Arguments
import SchemaLoom.Proofs.Surface.Generated

namespace SchemaLoom

open Artifact Resolver Surface

/-! ### Agreement

The names that a template reads of the arguments are compared with those that the operation
declares (`Reader.Matches`).  Texts that a directive gives are shown in the template as they
stand, and may read arguments of their own; these are left open.
-/

/-- The reader is emitted, and reads the arguments of the operation `o`, what the texts `given`
show, and nothing else. -/
structure Reader.Matches (reader : Reader) (fs : List Fragment) (o : Operation)
    (given : List String) : Prop where
  field : o.name = reader.field
  emitted : reader.IsEmitted fs
  reads : ∀ name, ReadsArgument reader.request.text name ↔
    name ∈ o.arguments.map (·.name) ∨ ∃ text ∈ given, ReadsArgument text name

/-- How values of an entry are accessed; a list is given for two. -/
def accessors (e : Entry) : List String :=
  if e.type.isList then [e.name ++ "[0]", e.name ++ "[1]"] else [e.name]

/-- Under each of `operators`, `text` reads of `argument` the parts of the key, what `given` shows,
and nothing else. -/
def ReadsParts (text argument : String) (operators parts : List Entry) (given : String) : Prop :=
  ∀ o ∈ operators, ∀ a ∈ accessors o, ∀ name, ReadsPart argument a text name ↔
    name ∈ parts.map (·.name) ∨ ReadsPart argument a given name

/-- Getting an item of `t` reads what a generated document among `fs` declares for it. -/
def GetReadsDeclared (fs : List Fragment) (t : Table) : Prop :=
  ∃ o others more,
    Fragment.ofText (schemaLocation t.name)
      (renderDocument (.extension "Query" (o :: others) :: more)) ∈ fs ∧
    o.arguments.map (·.name) = t.primaryKey.fields ∧ (getReader t).Matches fs o []

/-- A query by `key` reads what a generated document among `fs` declares for it, and under every
operator of a composite key the fields of the input that holds its parts; besides, the name of the
key is shown. -/
def QueryReadsDeclared (fs : List Fragment) (t : Table) (key : Key) : Prop :=
  ∃ o inputs,
    Fragment.ofText (schemaLocation (t.name ++ "." ++ queryName key))
      (renderDocument (.extension "Query" [o] :: inputs)) ∈ fs ∧
    o.arguments.map (·.name) = keyQueryArguments key ∧
    (queryReader t key).Matches fs o [shownName key.name] ∧
    (key.isComposite = true → ∃ argument operators parts,
      inputs = [.input (compositeConditionName t key) operators,
        .input (compositeKeyName t key) parts] ∧
      Entry.plain argument (compositeConditionName t key) ∈ o.arguments ∧
      ReadsParts (queryReader t key).request.text argument operators parts (shownName key.name))

/-- Following the relation `r` to many reads what the published schema declares for it; besides, the
name of the relation and the names of its keys are shown. -/
def RelationReadsDeclared (c : Catalog) (fs : List Fragment) (t : Table) (r : Relation) : Prop :=
  Fragment.ofEdit c.publishedLocation (.replaceField t.name r.field (listedField r).render) ∈ fs ∧
    (relationReader t r).Matches fs (listedField r)
      ([t.yourKey r, t.myKey r] ++ (present r.name).toList)

/-- Getting an item of `t`, its queries by key and its relations to many read what is declared for
them. -/
structure Compilation.ReadsDeclared (k : Compilation) (t : Table) : Prop where
  get : GetReadsDeclared k.fragments t
  query : ∀ key ∈ t.queryKeys, QueryReadsDeclared k.fragments t key
  relation : ∀ r ∈ t.relations, t.isResolvable r = true → r.toMany = true →
    RelationReadsDeclared k.catalog k.fragments t r

/-! ### Declared arguments -/

section Declared

variable {c : Catalog} {t : Table} {key : Key} {es : List Entry}

/-- The argument of a query by a composite key that holds conditions on the sort key. -/
theorem mem_arguments_of_isComposite (hcomposite : key.isComposite = true) {o : Operation}
    (h : queryOperation t key = .ok o) {own : String} (hown : key.sortArgument? = some own) :
    Entry.plain own (compositeConditionName t key) ∈ o.arguments := by
  unfold queryOperation at h
  obtain ⟨base, -, h⟩ := Outcome.of_bind_eq_ok h
  obtain ⟨sort, hsort, h⟩ := Outcome.of_bind_eq_ok h
  cases h
  unfold sortArgumentType? at hsort
  split at hsort
  next hnone => simp [Key.isComposite, hnone] at hcomposite
  next field hone => simp [Key.isComposite, hone] at hcomposite
  · cases hsort
    simp [hown]

end Declared

/-! ### Requests of a table -/

section Requests

variable {c : Catalog} {t : Table} {fs : List Fragment}

/-- The primary key is made of names if the declared keys are. -/
theorem isName_primaryKey (hnames : ∀ key ∈ t.keys, ∀ n ∈ key.fields, Sdl.isName n = true) :
    ∀ n ∈ t.primaryKey.fields, Sdl.isName n = true := by
  unfold Table.primaryKey
  cases hfound : t.keys.find? (·.isPrimary) with
  | none => decide
  | some key => exact hnames key (List.mem_of_find?_eq_some hfound)

theorem isName_sortArgument {key : Key} (hnames : ∀ n ∈ key.fields, Sdl.isName n = true) :
    ∀ a ∈ key.sortArgument?, Sdl.isName a = true := by
  intro a ha
  rw [Key.sortArgument?] at ha
  split at ha
  · cases ha
  next hsome =>
    cases ha
    exact isName_glued (by simpa using hsome) fun n hn =>
      hnames n (List.mem_cons_of_mem key.partition hn)

theorem exists_sortArgument {key : Key} (hcomposite : key.isComposite = true) :
    ∃ own, key.sortArgument? = some own := by
  have hsome : key.sortFields ≠ [] := by
    intro hnone
    simp [Key.isComposite, hnone] at hcomposite
  exact ⟨Key.glued key.sortFields, by simp [Key.sortArgument?, hsome]⟩

/-- Every operator of a composite sort key is looked into. -/
theorem mem_sortAccessors {composite : String} {o : Entry}
    (ho : o ∈ compositeOperators.map (Entry.plain · composite)
      ++ [.list "between" composite, .plain "beginsWith" composite])
    {a : String} (ha : a ∈ accessors o) : a ∈ sortAccessors := by
  have hoperators : ∀ n ∈ compositeOperators, n ∈ sortAccessors := by decide
  have hrange : ∀ n ∈ accessors (.list "between" composite), n ∈ sortAccessors := by
    simp [accessors, Entry.list, sortAccessors]
  have hstart : ∀ n ∈ accessors (.plain "beginsWith" composite), n ∈ sortAccessors := by
    simp [accessors, Entry.plain, sortAccessors]
  simp only [List.mem_append, List.mem_map, List.mem_cons, List.not_mem_nil, or_false] at ho
  rcases ho with ⟨n, hn, rfl⟩ | rfl | rfl
  · simp only [accessors, Entry.plain, Bool.false_eq_true, if_false, List.mem_singleton] at ha
    exact ha ▸ hoperators n hn
  · exact hrange a ha
  · exact hstart a ha

/-- **Getting an item reads what is declared for it**: the template is that of `getRequest`, the
declaration that of the operation. -/
theorem get_readsDeclared (hemit : c.emit.outcome = .ok fs) (ht : t ∈ c.tables)
    (hnames : ∀ n ∈ t.primaryKey.fields, Sdl.isName n = true) : GetReadsDeclared fs t := by
  obtain ⟨ds, hdeclarations, hdocument⟩ := Catalog.exists_operations_of_emit hemit ht
  obtain ⟨es, condition, filter, create, update, hkey, -, -, -, -, rfl⟩ :=
    of_operationDeclarations hdeclarations
  have hfields : (getOperation t es).arguments.map (·.name) = t.primaryKey.fields :=
    names_of_keyEntriesOf hkey
  refine ⟨_, _, _, hdocument, hfields, rfl, Catalog.isEmitted_of_readsOwn hemit ht .get,
    fun name => ?_⟩
  refine (readsArgument_getRequest hnames).trans ?_
  rw [hfields]
  simp

/-- **A query by a key reads what is declared for it**, in the template of `keyQueryRequest`. -/
theorem query_readsDeclared (hemit : c.emit.outcome = .ok fs) (ht : t ∈ c.tables) {key : Key}
    (hkey : key ∈ t.queryKeys) (hnames : ∀ n ∈ key.fields, Sdl.isName n = true) :
    QueryReadsDeclared fs t key := by
  have hargument := isName_sortArgument hnames
  obtain ⟨ds, hdeclarations, hdocument⟩ := Catalog.exists_query_of_emit hemit ht hkey
  obtain ⟨o, inputs, rfl, hoperation, hinputs⟩ := of_queryDeclarations hdeclarations
  obtain ⟨hname, harguments⟩ := of_queryOperation hoperation
  have hemitted := Catalog.isEmitted_of_readsOwn hemit ht (.query hkey)
  refine ⟨o, inputs, hdocument, harguments, ⟨hname, hemitted, fun name => ?_⟩, fun hcomposite => ?_⟩
  · refine (readsArgument_keyQueryRequest hnames hargument).trans ?_
    rw [harguments]
    simp
  · rcases hinputs with ⟨-, hinputs⟩ | ⟨hsingle, -⟩
    case inr => simp [hcomposite] at hsingle
    obtain ⟨parts, rfl, hparts⟩ := of_compositeInputs hinputs
    obtain ⟨own, hown⟩ := exists_sortArgument hcomposite
    refine ⟨own, _, parts, rfl, mem_arguments_of_isComposite hcomposite hoperation hown, ?_⟩
    intro operator hoperator a ha name
    rw [hparts]
    exact readsPart_keyQueryRequest (hargument own hown) (mem_sortAccessors hoperator ha) hnames
      hcomposite hown

/-- **Following a relation to many reads what is declared for it**: the four arguments of
`listingArguments`. -/
theorem relation_readsDeclared (hemit : c.emit.outcome = .ok fs) (ht : t ∈ c.tables) {r : Relation}
    (hr : r ∈ t.relations) (hresolvable : t.isResolvable r = true) (hmany : r.toMany = true) :
    RelationReadsDeclared c fs t r := by
  have hpart : TablePart.relation r ∈ t.parts := by simp [Table.parts, hr, hresolvable]
  obtain ⟨gs, hfragments, hemitted⟩ := Catalog.exists_part_of_emit hemit ht hpart
  simp only [Catalog.partFragments, Report.outcome_pure, Except.ok.injEq] at hfragments
  subst hfragments
  constructor
  · refine hemitted _ (List.mem_append_right _ ?_)
    simp [hmany]
  · refine ⟨rfl, Catalog.isEmitted_of_relation hemit ht hr hresolvable, fun name => ?_⟩
    have hrequest : (relationReader t r).request
        = relatedItemsRequest (t.yourKey r) (t.myKey r) r.name := if_pos hmany
    have harguments : name ∈ (listedField r).arguments.map (·.name) ↔ name ∈ listingArguments := by
      simp [listedField, Entry.plain, listingArguments, or_left_comm]
    rw [hrequest, readsArgument_relatedItemsRequest, harguments]
    rfl

end Requests

/-- **If the keys of a table are made of names, its requests read the arguments that the generated
schema declares for them, all of them and no others** (`Compilation.ReadsDeclared`); only the name
of a key, and the name and the keys of a relation, may spell further references. -/
theorem readsDeclared_of_compileDocument {schemaName : String} {scope : Sdl.Scope}
    {document : Sdl.Document} {compilation : Compilation}
    (hcompile : (compileDocument schemaName scope document).outcome = .ok compilation)
    {t : Table} (ht : t ∈ compilation.catalog.tables)
    (hnames : ∀ key ∈ t.keys, ∀ n ∈ key.fields, Sdl.isName n = true) :
    compilation.ReadsDeclared t := by
  obtain ⟨-, hemit⟩ := of_compileDocument hcompile
  constructor
  · exact get_readsDeclared hemit ht (isName_primaryKey hnames)
  · intro key hkey
    have hdeclared : key ∈ t.keys := (List.mem_filter.1 (List.mem_filter.1 hkey).1).1
    exact query_readsDeclared hemit ht hkey (hnames key hdeclared)
  · intro r hr hresolvable hmany
    exact relation_readsDeclared hemit ht hr hresolvable hmany

/-- Posts of authors, by author and by day and time. -/
def datedPosts : String :=
  "type Author @model \x7b id: ID! posts: [Post] @connection(name: \"AuthorPosts\") \x7d
  type Post @model
    @key(fields: [\"author\", \"day\", \"time\"], name: \"byAuthor\", queryField: \"postsByAuthor\")
    \x7b id: ID! author: String day: String time: String \x7d"

/-- The key by day and time of the posts of authors. -/
def keyByAuthor : Key :=
  { partition := "author", sortFields := ["day", "time"], name := some "byAuthor"
    queryField := some "postsByAuthor" }

theorem datedPosts_read : ∃ document compilation,
    Sdl.Document.parse datedPosts = .ok document ∧
      (compileDocument "schema.graphql" none document).outcome = .ok compilation ∧
      (∃ t ∈ compilation.catalog.tables, keyByAuthor ∈ t.queryKeys ∧
        ∀ name, ReadsArgument (queryReader t keyByAuthor).request.text name ↔
          name ∈ ["author", "dayTime", "sortDirection", "filter", "limit", "nextToken"]) ∧
      ∃ t ∈ compilation.catalog.tables, ∃ r ∈ t.relations,
        ∀ name, ReadsArgument (relationReader t r).request.text name ↔
          name ∈ ["filter", "sortDirection", "limit", "nextToken"] := by
  have hfacts : Outcome.Holds (Sdl.Document.parse datedPosts) fun document =>
      Outcome.Holds (compileDocument "schema.graphql" none document).outcome fun compilation =>
        (∀ t ∈ compilation.catalog.tables, ∀ key ∈ t.keys, ∀ n ∈ key.fields, Sdl.isName n = true) ∧
        (∃ t ∈ compilation.catalog.tables, keyByAuthor ∈ t.queryKeys) ∧
        ∃ t ∈ compilation.catalog.tables, ∃ r ∈ t.relations,
          t.isResolvable r = true ∧ r.toMany = true ∧
            [t.yourKey r, t.myKey r] ++ (present r.name).toList
              = ["postAuthorId", "id", "AuthorPosts"] := by
    set_option maxRecDepth 2000 in refine Sdl.Document.holds_parse rfl ?_
    decide +kernel
  obtain ⟨document, hparse, compilation, hcompile, hnames, ⟨t, ht, hkey⟩, s, hs, r, hr, hresolvable,
    hmany, hgiven⟩ := hfacts
  have hsilent : ∀ text ∈ ["byAuthor", "postAuthorId", "id", "AuthorPosts"], IsSilent text := by
    decide +kernel
  refine ⟨document, compilation, hparse, hcompile, ⟨t, ht, hkey, fun name => ?_⟩, s, hs, r, hr,
    fun name => ?_⟩
  · obtain ⟨o, -, -, harguments, hmatches, -⟩ :=
      (readsDeclared_of_compileDocument hcompile ht (hnames t ht)).query keyByAuthor hkey
    have hnone : ¬ ∃ text ∈ [shownName keyByAuthor.name], ReadsArgument text name := by
      rintro ⟨text, htext, hread⟩
      rw [List.mem_singleton.1 htext] at hread
      exact not_readsArgument_of_isSilent (hsilent "byAuthor" (by decide)) hread
    rw [hmatches.reads name, harguments, or_iff_left hnone]
    rfl
  · obtain ⟨-, hmatches⟩ :=
      (readsDeclared_of_compileDocument hcompile hs (hnames s hs)).relation r hr hresolvable hmany
    have hnone : ¬ ∃ text ∈ [s.yourKey r, s.myKey r] ++ (present r.name).toList,
        ReadsArgument text name := by
      rw [hgiven]
      rintro ⟨text, htext, hread⟩
      exact not_readsArgument_of_isSilent (hsilent text (List.mem_cons_of_mem _ htext)) hread
    rw [hmatches.reads name, or_iff_left hnone]
    rfl

/-- Posts by author and by day, where names of indexes refer to arguments. -/
def namedPosts : String :=
  "type Author @model \x7b id: ID! posts: [Post] @connection(name: \"$ctx.args.whose\") \x7d
  type Post @model @key(fields: [\"day\"], name: \"$ctx.args.who\", queryField: \"byDay\")
    \x7b day: Int \x7d"

/-- The key of posts by day. -/
def keyByDay : Key :=
  { partition := "day", name := some "$ctx.args.who", queryField := some "byDay" }

/-- Neither the query nor the relation declares the argument that its request reads. -/
theorem namedPosts_read : ∃ document compilation,
    Sdl.Document.parse namedPosts = .ok document ∧
      (compileDocument "schema.graphql" none document).outcome = .ok compilation ∧
      (∀ t ∈ compilation.catalog.tables, ∀ key ∈ t.keys, ∀ n ∈ key.fields, Sdl.isName n = true) ∧
      (∃ t ∈ compilation.catalog.tables, keyByDay ∈ t.queryKeys ∧
        ReadsArgument (queryReader t keyByDay).request.text "who" ∧
        ∀ o, queryOperation t keyByDay = .ok o → "who" ∉ o.arguments.map (·.name)) ∧
      ∃ t ∈ compilation.catalog.tables, ∃ r ∈ t.relations, t.isResolvable r = true ∧
        ReadsArgument (relationReader t r).request.text "whose" ∧
        "whose" ∉ (listedField r).arguments.map (·.name) := by
  have hfacts : Outcome.Holds (Sdl.Document.parse namedPosts) fun document =>
      Outcome.Holds (compileDocument "schema.graphql" none document).outcome fun compilation =>
        (∀ t ∈ compilation.catalog.tables, ∀ key ∈ t.keys, ∀ n ∈ key.fields, Sdl.isName n = true) ∧
        (∃ t ∈ compilation.catalog.tables, keyByDay ∈ t.queryKeys) ∧
        ∃ t ∈ compilation.catalog.tables, ∃ r ∈ t.relations,
          t.isResolvable r = true ∧ r.toMany = true ∧ r.name = some "$ctx.args.whose" := by
    set_option maxRecDepth 2000 in refine Sdl.Document.holds_parse rfl ?_
    decide +kernel
  obtain ⟨document, hparse, compilation, hcompile, hnames, ⟨t, ht, hkey⟩, s, hs, r, hr, hresolvable,
    hmany, hname⟩ := hfacts
  refine ⟨document, compilation, hparse, hcompile, hnames, ⟨t, ht, hkey, ?_, fun o ho => ?_⟩, s, hs,
    r, hr, hresolvable, ?_, ?_⟩
  · refine (readsArgument_keyQueryRequest (by decide) (by decide)).2 (Or.inr ?_)
    have hwho : ReadsArgument (argument "who") "who" := (readsArgument_word (by decide)).2 rfl
    exact hwho
  · rw [(of_queryOperation ho).2]
    decide
  · have hrequest : (relationReader s r).request
        = relatedItemsRequest (s.yourKey r) (s.myKey r) r.name := if_pos hmany
    rw [hrequest, hname, readsArgument_relatedItemsRequest]
    refine Or.inr ⟨"$ctx.args.whose", by simp, ?_⟩
    have hwhose : ReadsArgument (argument "whose") "whose" := (readsArgument_word (by decide)).2 rfl
    exact hwhose
  · simp [listedField, Entry.plain]

end SchemaLoom
