/-
Which attributes behind relations can be written.

Related items are found by an attribute that holds a key: an attribute of the related items for a
relation to many, an attribute of the item itself for a relation to one.  A caller writes it
through the inputs that create and change items (`LetsWrite`).  They have a field for every
foreign key that is implied, and one for every stored relation to one item, under the attribute
that the relation is resolved by.

So a relation to many can be populated if it has no other end, for then its foreign key is
implied; or if its other end is stored and resolved by the foreign key that both ends share.
What both ends share is told by how relations are classified, and of several relations to many on
one field the last counts.

Relations to one item of which nothing is said (`IsPlain`) have the attribute that their types
suggest, or what the other end gives (`attributeOf`): relations between the same types share it.
-/
import Mathlib.Data.List.Nodup
import SchemaLoom.Proofs.Catalog.Emission
import SchemaLoom.Proofs.Catalog.SharedKey
import SchemaLoom.Proofs.Surface.TenantField

namespace SchemaLoom.Surface

open Artifact Catalog

variable {c before : Catalog} {k : Compilation} {t u : Table} {r r' s e : Relation} {i j : Nat}
  {es : List Entry} {name : String}

/-! ### Fields of inputs -/

/-- What is given for a stored relation or implied is a field of an input, once. -/
theorem count_names_input {make : Sdl.Field → Except Fault (Option Entry)} (hnames : Names t make)
    {own : List (Option Entry)} (hown : (storedFields t).mapM make = .ok own) (keys : List Entry)
    (h : GivesRelation t name ∨ name ∈ t.impliedForeignKeys) :
    ((Entry.firstOfName (own.filterMap id
        ++ t.impliedForeignKeys.map (fun key => Entry.plain key "String") ++ keys)).map
          (·.name)).count name = 1 := by
  refine List.count_eq_one_of_mem (Entry.nodup_firstOfName _) (mem_names_firstOfName.2 ?_)
  rw [List.map_append, List.map_append, List.mem_append, List.mem_append]
  rcases h with hgiven | himplied
  · exact Or.inl (Or.inl (mem_names_own_of_givesRelation hnames hown hgiven))
  · exact Or.inl (Or.inr (by simpa [Entry.plain] using himplied))

theorem count_names_createFields (h : createFields c t = .ok es)
    (hname : GivesRelation t name ∨ name ∈ t.impliedForeignKeys) :
    (es.map (·.name)).count name = 1 := by
  unfold createFields at h
  obtain ⟨isGenerated, -, h⟩ := Outcome.of_bind_eq_ok h
  obtain ⟨own, hown, h⟩ := Outcome.of_bind_eq_ok h
  obtain ⟨keys, -, h⟩ := Outcome.of_bind_eq_ok h
  cases h
  exact count_names_input (names_createEntry isGenerated) hown keys hname

theorem count_names_updateFields (h : updateFields c t = .ok es)
    (hname : GivesRelation t name ∨ name ∈ t.impliedForeignKeys) :
    (es.map (·.name)).count name = 1 := by
  unfold updateFields at h
  obtain ⟨own, hown, h⟩ := Outcome.of_bind_eq_ok h
  obtain ⟨keys, -, h⟩ := Outcome.of_bind_eq_ok h
  cases h
  exact count_names_input names_updateEntry hown keys hname

/-- The inputs that create and change items of `t` are emitted, each with one field of the name
`name`. -/
def LetsWrite (k : Compilation) (t : Table) (name : String) : Prop :=
  ∃ ds create update, Fragment.ofText (schemaLocation t.name) (renderDocument ds) ∈ k.fragments ∧
    .input (inputName t.name .create) create ∈ ds ∧ .input (inputName t.name .update) update ∈ ds ∧
    (create.map (·.name)).count name = 1 ∧ (update.map (·.name)).count name = 1

/-- What is given for a stored relation or implied can be written. -/
theorem letsWrite_of_emit (hemit : k.catalog.emit.outcome = .ok k.fragments)
    (ht : t ∈ k.catalog.tables) (hname : GivesRelation t name ∨ name ∈ t.impliedForeignKeys) :
    LetsWrite k t name := by
  obtain ⟨ds, hdeclared, hemitted⟩ := exists_operations_of_emit hemit ht
  obtain ⟨create, update, hcreate, hupdate, hnew, hchanged⟩ :=
    inputs_of_operationDeclarations hdeclared
  exact ⟨ds, create, update, hemitted, hnew, hchanged, count_names_createFields hcreate hname,
    count_names_updateFields hupdate hname⟩

/-- The relation `r` is the one that inputs are given for its field, and the field is stored. -/
structure IsStored (t : Table) (r : Relation) : Prop where
  field : ∃ f ∈ storedFields t, f.name = r.field
  first : t.relation? r.field = some r

theorem IsStored.givesRelation (h : IsStored t r) (hone : r.toMany = false) :
    GivesRelation t (t.myKey r) := by
  obtain ⟨f, hf, hname⟩ := h.field
  exact ⟨f, hf, r, by rw [hname]; exact h.first, hone, rfl⟩

/-! ### Relations to many

The foreign key is implied if there is no other end.  If there is one it is the key of that end,
which the inputs have as a relation to one item.
-/

/-- The foreign key of a relation to many without another end is implied. -/
theorem mem_impliedForeignKeys_of_isLast (hnodup : before.tableNames.Nodup)
    (hnone : before.ImpliesNothing) (ht : t ∈ before.classify.1.tables) (hlast : t.IsLast i s)
    (hu : before.classify.1.table? s.target = some u) (hend : u.otherEnd? (t.demand s) = none) :
    t.foreignKey s ∈ u.impliedForeignKeys := by
  have htable := table?_of_mem_classify hnodup ht
  have hnoend : (before.table? s.target).bind (·.otherEnd? (t.demand s)) = none := by
    rw [← otherEnd?_eq_none_iff hnodup, hu, Option.bind_some, hend]
  rw [mem_impliedForeignKeys_iff hnodup hnone (mem_of_table? hu).1,
    foreignKey_of_isLast hnodup htable hlast, keyInTurn, hnoend]
  exact ⟨t, ht, s, List.mem_of_getElem? hlast.relation, hlast.toMany, (name_of_table? hu).symm,
    hend, rfl⟩

/-- **The attribute by which a relation to many finds its items can be written there
(`LetsWrite`)**, unless the relation says the attribute itself: if it has no other end; or if its
other end is stored, does not say how it is resolved, and was not overtaken. Relations to many on
one field share the attribute, so the last of them counts. -/
theorem relatedItems_writable {document : Sdl.Document} {schemaName : String} {scope : Sdl.Scope}
    (hbefore : collected document schemaName scope = .ok before)
    (hcompile : (compileDocument schemaName scope document).outcome = .ok k)
    (ht : t ∈ k.catalog.tables) (hmany : r.toMany = true) (hplain : present r.yourKey = none)
    (hu : k.catalog.table? r.target = some u) (hlast : t.IsLast i s) (hfield : r.field = s.field)
    (htarget : s.target = r.target)
    (hend : ∀ name e, present s.name = some name → u.reciprocal? name t.name false = some e →
      IsStored u e ∧ present e.myKey = none ∧ ¬ before.IsOvertaken t i s) :
    LetsWrite k u (t.yourKey r) := by
  obtain ⟨hgather, hemit⟩ := of_compileDocument hcompile
  obtain ⟨hnodup, hcatalog⟩ := eq_classify_of_gather hbefore hgather
  refine letsWrite_of_emit hemit (mem_of_table? hu).1 ?_
  rw [hcatalog] at ht hu
  have htable := table?_of_mem_classify hnodup ht
  have hkey : t.yourKey r = t.foreignKey s := by
    rw [Table.yourKey, hplain, Option.getD_none, if_pos hmany,
      foreignKey_of_field hnodup htable hlast hmany hfield]
  rw [← htarget] at hu
  rw [hkey]
  cases hother : u.otherEnd? (t.demand s) with
  | none =>
    exact Or.inr (mem_impliedForeignKeys_of_isLast hnodup (impliesNothing_of_collected hbefore) ht
      hlast hu hother)
  | some e =>
    obtain ⟨-, name, hname, -, -, hone⟩ := Table.otherEnd?_eq_some hother
    have hnamed : present s.name = some name := hname
    obtain ⟨hstored, hresolved, hkept⟩ :=
      hend name e hnamed (by rw [← Table.otherEnd?_demand hnamed, hother])
    have hshared := (foreignKey_eq_iff_not_isOvertaken hnodup htable hlast hu hother).2 hkept
    have hgiven := hstored.givesRelation hone
    rw [Table.myKey, hresolved, Option.getD_none, hone, if_neg Bool.false_ne_true, ← hshared]
      at hgiven
    exact Or.inl hgiven

/-- Authors with posts, as the options of the relation say, and posts whose author has some
directives. -/
def authorsAndPosts (options : List (String × Sdl.Value)) (directives : List Sdl.Directive) :
    Sdl.Document :=
  ⟨[tableOf "Author" [⟨none, "posts", [], .list (.named "Post"),
      [⟨"connection", ("name", .string "P" false) :: options⟩]⟩],
    tableOf "Post" [⟨none, "author", [], .named "Author",
      ⟨"connection", [("name", .string "P" false)]⟩ :: directives⟩]]⟩

/-- Posts that are found by a foreign key which the authors give. -/
def writtenPosts : Sdl.Document := authorsAndPosts [("foreignKey", .string "writerId" false)] []

/-- The author of a post can be written under the foreign key. -/
theorem writtenPosts_writable : ∃ k t r u,
    (compileDocument "schema.graphql" none writtenPosts).outcome = .ok k ∧ t ∈ k.catalog.tables ∧
      r ∈ t.relations ∧ r.toMany = true ∧ k.catalog.table? r.target = some u ∧
      t.yourKey r = "writerId" ∧ LetsWrite k u "writerId" := by
  have hfacts : Outcome.Holds (compileDocument "schema.graphql" none writtenPosts).outcome fun k =>
      ∃ t ∈ k.catalog.tables, ∃ r ∈ t.relations[0]?, r.toMany = true ∧ t.relations.length = 1 ∧
        present r.yourKey = none ∧ present r.name = some "P" ∧ t.yourKey r = "writerId" ∧
        (t.demand r).said (t.relations.take 1) ≠ none ∧
        ∃ u ∈ k.catalog.table? r.target, ∃ e ∈ u.reciprocal? "P" t.name false,
          (∃ f ∈ storedFields u, f.name = e.field) ∧ u.relation? e.field = some e ∧
            present e.myKey = none := by
    decide +kernel
  obtain ⟨k, hcompile, t, ht, r, hrelation, hmany, hone, hplain, hname, hkey, hsaid,
    u, hu, e, hend, hfield, hfirst, hresolved⟩ := hfacts
  obtain ⟨before, hbefore, -⟩ := exists_collected_of_gather (of_compileDocument hcompile).1
  have hlast : t.IsLast 0 r := by
    refine ⟨hrelation, hmany, fun j s hs _ _ => ?_⟩
    have hbound := (List.getElem?_eq_some_iff.1 hs).1
    omega
  have hwritable := relatedItems_writable hbefore hcompile ht hmany hplain hu hlast rfl rfl ?_
  · exact ⟨k, t, r, u, hcompile, ht, List.mem_of_getElem? hrelation, hmany, hu, hkey,
      hkey ▸ hwritable⟩
  · intro name e' hnamed hend'
    rw [hname, Option.some.injEq] at hnamed
    subst hnamed
    rw [Option.mem_def.1 hend, Option.some.injEq] at hend'
    subst hend'
    refine ⟨⟨hfield, hfirst⟩, hresolved, ?_⟩
    rintro ⟨-, -, -, -, -, -, hsilent, -⟩
    exact hsaid hsilent

/-- Posts whose author is computed. -/
def computedAuthors : Sdl.Document :=
  authorsAndPosts [] [⟨"function", [("name", .string "f" false)]⟩]

/-- What is computed is not stored: the attribute by which the posts of an author are found cannot
be written. -/
theorem computedAuthors_unwritable :
    Outcome.Holds (compileDocument "schema.graphql" none computedAuthors).outcome fun k =>
      ∃ t ∈ k.catalog.tables, ∃ r ∈ t.relations, r.toMany = true ∧ present r.name = some "P" ∧
        present r.yourKey = none ∧ ∃ u ∈ k.catalog.table? r.target,
          Outcome.Holds (createFields k.catalog u) fun create =>
            Outcome.Holds (updateFields k.catalog u) fun update =>
              t.yourKey r ∉ create.map (·.name) ∧ t.yourKey r ∉ update.map (·.name) := by
  decide +kernel

/-! ### Relations to one item -/

/-- At the position `i` of `t` there is a relation `r` to one item that gave no foreign key, and
does not say by which attribute it is resolved. -/
structure IsPlain (before : Catalog) (t : Table) (i : Nat) (r : Relation) : Prop where
  relation : t.relations[i]? = some r
  toOne : r.toMany = false
  noForeignKey : ∀ t₀ r₀, before.table? t.name = some t₀ → t₀.relations[i]? = some r₀ →
    r₀.foreignKey = none
  noMyKey : present r.myKey = none

/-- The attribute behind a relation to one item that gives none itself: what the relations to many
of the related table give it, or what its types suggest. -/
def attributeOf (before : Catalog) (t : Table) (i : Nat) (r : Relation) : String :=
  (present (t.takenFrom (before.relationsIn r.target) i r)).getD
    (Text.lowerFirst t.name ++ r.target ++ "Id")

theorem IsPlain.myKey_eq (h : IsPlain before t i r) (hnodup : before.tableNames.Nodup)
    (ht : t ∈ before.classify.1.tables) : t.myKey r = attributeOf before t i r := by
  have htable := table?_of_mem_classify hnodup ht
  obtain ⟨t₀, r₀, hbefore, hrelation₀, hkey⟩ :=
    foreignKey_of_classify hnodup htable h.relation h.toOne
  rw [h.noForeignKey t₀ r₀ hbefore hrelation₀, Option.none_or] at hkey
  rw [Table.myKey, h.noMyKey, Option.getD_none, h.toOne, if_neg Bool.false_ne_true,
    Table.foreignKey_of_toOne t h.toOne, hkey, attributeOf]

/-- Without a foreign key from other ends, relations of a table share an attribute just if they lead
to tables of one name. -/
theorem attributeOf_eq_iff (h : present (t.takenFrom (before.relationsIn r.target) i r) = none)
    (h' : present (t.takenFrom (before.relationsIn r'.target) j r') = none) :
    attributeOf before t i r = attributeOf before t j r' ↔ r.target = r'.target := by
  rw [attributeOf, attributeOf, h, h', Option.getD_none, Option.getD_none, String.append_left_inj,
    String.append_right_inj]

/-- **Two relations to one item that give no attribute are resolved through what other ends give, or
through what their types suggest**: without other ends through two attributes exactly if they lead
to different tables.  Callers can write them if both are stored. -/
theorem attributes_of_compileDocument {document : Sdl.Document} {schemaName : String}
    {scope : Sdl.Scope} (hbefore : collected document schemaName scope = .ok before)
    (hcompile : (compileDocument schemaName scope document).outcome = .ok k)
    (ht : t ∈ k.catalog.tables) (h : IsPlain before t i r) (h' : IsPlain before t j r') :
    (t.myKey r = attributeOf before t i r ∧ t.myKey r' = attributeOf before t j r') ∧
    (present (t.takenFrom (before.relationsIn r.target) i r) = none →
      present (t.takenFrom (before.relationsIn r'.target) j r') = none →
      (t.myKey r ≠ t.myKey r' ↔ r.target ≠ r'.target)) ∧
    (IsStored t r → IsStored t r' → LetsWrite k t (t.myKey r) ∧ LetsWrite k t (t.myKey r')) := by
  obtain ⟨hgather, hemit⟩ := of_compileDocument hcompile
  obtain ⟨hnodup, hcatalog⟩ := eq_classify_of_gather hbefore hgather
  have hfirst := h.myKey_eq hnodup (hcatalog ▸ ht)
  have hsecond := h'.myKey_eq hnodup (hcatalog ▸ ht)
  refine ⟨⟨hfirst, hsecond⟩, fun hnone hnone' => ?_, fun hstored hstored' => ⟨?_, ?_⟩⟩
  · rw [hfirst, hsecond, Ne, attributeOf_eq_iff hnone hnone']
  · exact letsWrite_of_emit hemit ht (Or.inl (hstored.givesRelation h.toOne))
  · exact letsWrite_of_emit hemit ht (Or.inl (hstored'.givesRelation h'.toOne))

/-- A field that leads to an author. -/
def authorField (name : String) (options : List (String × Sdl.Value)) : Sdl.Field :=
  ⟨none, name, [], .named "Author", [⟨"connection", options⟩]⟩

/-- Posts with an author, for whom authors give a foreign key, and an editor. -/
def editedPosts : Sdl.Document :=
  ⟨[tableOf "Author" [⟨none, "posts", [], .list (.named "Post"),
      [⟨"connection", [("name", .string "P" false), ("foreignKey", .string "writerId" false)]⟩]⟩],
    tableOf "Post" [authorField "author" [("name", .string "P" false)], authorField "editor" []]]⟩

/-- The author and the editor of a post are written apart. -/
theorem editedPosts_apart : ∃ k t r r',
    (compileDocument "schema.graphql" none editedPosts).outcome = .ok k ∧ t ∈ k.catalog.tables ∧
      r ∈ t.relations ∧ r' ∈ t.relations ∧ r.field = "author" ∧ r'.field = "editor" ∧
      t.myKey r ≠ t.myKey r' ∧ LetsWrite k t (t.myKey r) ∧ LetsWrite k t (t.myKey r') := by
  have hdeclared : Outcome.Holds (collected editedPosts "schema.graphql" none) fun before =>
      ∀ t₀ ∈ before.tables, t₀.name = "Post" → ∀ r₀ ∈ t₀.relations, r₀.foreignKey = none := by
    decide +kernel
  have hfacts : Outcome.Holds (compileDocument "schema.graphql" none editedPosts).outcome fun k =>
      ∃ t ∈ k.catalog.tables, t.name = "Post" ∧ ∃ r ∈ t.relations[0]?, ∃ r' ∈ t.relations[1]?,
        r.field = "author" ∧ r'.field = "editor" ∧ t.myKey r ≠ t.myKey r' ∧
        ∀ s ∈ [r, r'], s.toMany = false ∧ present s.myKey = none ∧
          (∃ f ∈ storedFields t, f.name = s.field) ∧ t.relation? s.field = some s := by
    decide +kernel
  obtain ⟨before, hbefore, hnone⟩ := hdeclared
  obtain ⟨k, hcompile, t, ht, hname, r, hrelation, r', hrelation', hfield, hfield', hapart,
    heach⟩ :=
    hfacts
  have hplain : ∀ i s, t.relations[i]? = some s → s ∈ [r, r'] → IsPlain before t i s := by
    intro i s hs hmem
    obtain ⟨hone, hresolved, -⟩ := heach s hmem
    refine ⟨hs, hone, fun t₀ r₀ htable hr => ?_, hresolved⟩
    exact hnone t₀ (mem_of_table? htable).1 ((name_of_table? htable).trans hname) r₀
      (List.mem_of_getElem? hr)
  have hstored : ∀ s ∈ [r, r'], IsStored t s := fun s hmem =>
    ⟨(heach s hmem).2.2.1, (heach s hmem).2.2.2⟩
  obtain ⟨-, -, hwritten⟩ := attributes_of_compileDocument hbefore hcompile ht
    (hplain 0 r hrelation (by simp)) (hplain 1 r' hrelation' (by simp))
  have hboth := hwritten (hstored r (by simp)) (hstored r' (by simp))
  exact ⟨k, t, r, r', hcompile, ht, List.mem_of_getElem? hrelation, List.mem_of_getElem? hrelation',
    hfield, hfield', hapart, hboth⟩

/-- Posts with an author and an editor, of whom nothing is said. -/
def plainPosts : Sdl.Document :=
  ⟨[tableOf "Author" [⟨none, "name", [], .named "String", []⟩],
    tableOf "Post" [authorField "author" [], authorField "editor" []]]⟩

/-- Both are resolved through the attribute that their types suggest. -/
theorem plainPosts_shared :
    Outcome.Holds (compileDocument "schema.graphql" none plainPosts).outcome fun k =>
      ∃ t ∈ k.catalog.tables, ∃ r ∈ t.relations, ∃ r' ∈ t.relations, r.field ≠ r'.field ∧
        (∀ s ∈ [r, r'], s.toMany = false ∧ s.foreignKey = none ∧ s.myKey = none) ∧
        t.myKey r = t.myKey r' := by
  decide +kernel

end SchemaLoom.Surface
