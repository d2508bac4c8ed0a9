/-
Keys in the place of relations of input types.

A field of an input type that repeats a relation of a table is given by the key of the related
item.  The name of the field that takes its place is made while directives are collected, from
the options alone: the foreign key that they say comes first, then the attribute by which the
relation is resolved.  The attribute of the table is only known when all relations are
classified: there the order is the other way round, and a foreign key that the other end gives
counts as well.

Without any of them both have the name that the types suggest.  So the two come apart exactly if
both attributes are said and differ, or if the table has an attribute of which the options of the
input type say nothing (`ComesApart`).

The two names are computed from the same options by two functions, so `name_eq_iff` is a
comparison of two short cascades of alternatives; what it takes to get there is that
classification leaves alone what a relation says for itself (`stated_of_classify`).
-/
import SchemaLoom.Proofs.Catalog.Dispatch
import SchemaLoom.Proofs.Surface.RelationKeys

namespace SchemaLoom

/-! ### What relations say for themselves -/

/-- A relation without what classification may find out about it. -/
def Relation.stated (r : Relation) : Relation := { r with foreignKey := none, kind := none }

theorem Table.map_stated_note (t : Table) (f : Finding) :
    (t.note f).relations.map Relation.stated = t.relations.map Relation.stated := by
  have hkind := map_eq_of_map_eq (f := Relation.stated) ?_ (map_unkinded_noteKind t f)
  · rw [← hkind, note, relations_noteKey]
    unfold noteDemand
    split
    · split
      · rw [relations_answer]
        exact map_adoptFirst (fun _ _ => rfl) _
      · rfl
    · rfl
  · intro r r' hsame
    exact congrArg (fun r : Relation => { r with foreignKey := none }) hsame

namespace Catalog

/-- Classification leaves alone what relations say for themselves. -/
theorem stated_of_classify {c : Catalog} {name : String} {t₀ t : Table}
    (hbefore : c.table? name = some t₀) (htable : c.classify.1.table? name = some t) :
    t.relations.map Relation.stated = t₀.relations.map Relation.stated := by
  have hkept := classifyAll_keeps (P := fun c' => ∀ u, c'.table? name = some u →
      u.relations.map Relation.stated = t₀.relations.map Relation.stated) ?_ c.relationPositions
    (c := c) ?_
  · exact hkept t htable
  · intro c' position hsame u hnext
    rw [table?_classifyAt, Option.map_eq_some_iff] at hnext
    obtain ⟨u', hnow, rfl⟩ := hnext
    cases c'.finding? position with
    | none => exact hsame u' hnow
    | some f => exact (u'.map_stated_note f).trans (hsame u' hnow)
  · intro u hu
    rw [hbefore, Option.some.injEq] at hu
    rw [hu]

/-! ### Names in options -/

/-- The text that options say under a name. -/
def saidUnder (options : Form.Fields) (name : String) : Option String :=
  (Tree.lookup (.text name) options).bind givenText

theorem present_of_ne {s : String} (h : s ≠ "") : present (some s) = some s :=
  Option.filter_eq_some_iff.2 ⟨rfl, by simpa⟩

theorem givenText_text (s : String) : givenText (.text s) = present (some s) := by
  by_cases hempty : s = ""
  · subst hempty
    rfl
  · rw [present_of_ne hempty]
    have hdisplay : (Tree.text s).display = s := rfl
    simp [givenText, hempty, hdisplay]

/-- What options say under the first name of a field is what is read there. -/
theorem present_of_renamed {options : Form.Fields} {name second s : String} {read : Option String}
    (h : Form.renamed options name second none (Form.optional Form.text) = .ok read)
    (hsaid : saidUnder options name = some s) : present read = some s := by
  unfold saidUnder at hsaid
  unfold Form.renamed at h
  cases hgiven : Tree.lookup (.text name) options with
  | none =>
    rw [hgiven] at hsaid
    cases hsaid
  | some tree =>
    rw [hgiven, Option.bind_some] at hsaid
    rw [hgiven] at h
    have hread := Outcome.of_mapError_eq_ok h
    unfold Form.optional at hread
    split at hread
    · cases hsaid
    · obtain ⟨text, htext, rfl⟩ := Outcome.of_map_eq_ok hread
      unfold Form.text at htext
      split at htext
      · cases htext
        rw [← hsaid, givenText_text]
      · cases htext

theorem keys_of_declared {field : String} {shape : Sdl.Shape} {options : Form.Fields} {r : Relation}
    (h : Relation.declared field shape options = .ok r) :
    (∀ key, saidUnder options "foreignKey" = some key → present r.foreignKey = some key) ∧
      ∀ key, saidUnder options "myKey" = some key → present r.myKey = some key := by
  unfold Relation.declared Relation.readOptions at h
  obtain ⟨name, -, h⟩ := Outcome.of_bind_eq_ok h
  obtain ⟨foreignKey, hforeign, h⟩ := Outcome.of_bind_eq_ok h
  obtain ⟨myKey, hmine, h⟩ := Outcome.of_bind_eq_ok h
  obtain ⟨yourKey, -, h⟩ := Outcome.of_bind_eq_ok h
  obtain ⟨sortField, -, h⟩ := Outcome.of_bind_eq_ok h
  obtain ⟨kind, -, h⟩ := Outcome.of_bind_eq_ok h
  cases h
  exact ⟨fun key => present_of_renamed hforeign, fun key => present_of_renamed hmine⟩

theorem withoutInputEnding_append (name : String) :
    withoutInputEnding (name ++ inputEnding) = name := by
  unfold withoutInputEnding
  simp

end Catalog

namespace Surface

open Artifact Catalog

variable {options : Form.Fields}

/-! ### Two names for one key

The name of the relation and the names that options give decide in different orders what the key
is called.  `ComesApart` lists the cases in which that matters.
-/

/-- How the name that options give to an input type comes apart from the attribute of the relation
that they declare, which other ends may give a foreign key. -/
inductive ComesApart (options : Form.Fields) (declared : Relation) (taken : Option String)
    (suggested : String) : Prop where
  /-- The input type prefers the foreign key, the table the attribute of its own. -/
  | overruled {foreign own : String} (hforeign : saidUnder options "foreignKey" = some foreign)
    (hown : present declared.myKey = some own) (hne : foreign ≠ own)
  /-- The input type is told nothing, but the table is: by other ends, or under second names. -/
  | unheard {key : String} (hforeign : saidUnder options "foreignKey" = none)
    (hown : saidUnder options "myKey" = none)
    (hkey : (present declared.myKey).or (present (declared.foreignKey.or taken)) = some key)
    (hne : key ≠ suggested)

variable {declared : Relation} {taken : Option String} {suggested : String}

theorem comesApart_iff : ComesApart options declared taken suggested ↔
    (∃ foreign own, saidUnder options "foreignKey" = some foreign ∧
      present declared.myKey = some own ∧ foreign ≠ own) ∨
    saidUnder options "foreignKey" = none ∧ saidUnder options "myKey" = none ∧
      ∃ key, (present declared.myKey).or (present (declared.foreignKey.or taken)) = some key ∧
        key ≠ suggested := by
  constructor
  · rintro (⟨hforeign, hown, hne⟩ | ⟨hforeign, hown, hkey, hne⟩)
    · exact Or.inl ⟨_, _, hforeign, hown, hne⟩
    · exact Or.inr ⟨hforeign, hown, _, hkey, hne⟩
  · rintro (⟨foreign, own, hforeign, hown, hne⟩ | ⟨hforeign, hown, key, hkey, hne⟩)
    · exact .overruled hforeign hown hne
    · exact .unheard hforeign hown hkey hne

/-- **The two names are one unless they come apart (`ComesApart`).** -/
theorem name_eq_iff {shape : Sdl.Shape} {name : String}
    (hdeclared : Relation.declared name shape options = .ok declared) :
    ((saidUnder options "foreignKey").or (saidUnder options "myKey")).getD suggested
        = (present declared.myKey).getD
          ((present (declared.foreignKey.or taken)).getD suggested) ↔
      ¬ ComesApart options declared taken suggested := by
  obtain ⟨hforeign, hmine⟩ := keys_of_declared hdeclared
  rw [comesApart_iff]
  cases hfirst : saidUnder options "foreignKey" with
  | some foreign =>
    have hkept : present (declared.foreignKey.or taken) = some foreign := by
      rw [(of_present_eq_some (hforeign foreign hfirst)).1, Option.some_or]
      exact present_of_ne (of_present_eq_some (hforeign foreign hfirst)).2
    cases hown : present declared.myKey <;> simp [hkept]
  | none =>
    cases hsecond : saidUnder options "myKey" with
    | some own => simp [hmine own hsecond]
    | none =>
      cases hown : present declared.myKey with
      | some own => simp [eq_comm]
      | none => cases present (declared.foreignKey.or taken) <;> simp [eq_comm]

/-! ### Input types that repeat relations -/

variable {document : Sdl.Document} {schemaName : String} {scope : Sdl.Scope} {before : Catalog}
  {k : Compilation} {t : Table} {r : Relation} {i : Nat} {body : Sdl.InputType}
  {field : Sdl.InputField}

/-- The field `field` of the input type `body` repeats the relation `r` to one item at the position
`i` of `t`: the type is bound to the table, the field leads to the input type of the related one,
and both have the same options. -/
structure Repeats (document : Sdl.Document) (scope : Sdl.Scope) (t : Table) (i : Nat)
    (r : Relation) (body : Sdl.InputType) (field : Sdl.InputField) (options : Form.Fields) :
    Prop where
  relation : t.relations[i]? = some r
  toOne : r.toMany = false
  declared : ∃ o, (aboutType scope .relation t.name (occurrences document))[i]? = some o ∧
    o.2.entries = options
  type : .input body ∈ document.declarations
  inScope : (Sdl.Site.type (.input body)).inScope scope = true
  bound : present (Sdl.Declaration.input body).boundTo? = some t.name
  member : field ∈ body.fields
  base : field.type.base = r.target ++ inputEnding
  directive : ∃ d ∈ field.directives, d.name = Role.connection.name ∧ d.entries = options

/-- The name that a table's types suggest for the attribute behind a relation to one item. -/
def suggestedKey (t : Table) (r : Relation) : String := Text.lowerFirst t.name ++ r.target ++ "Id"

/-- The field of an input type is bound to the name that its options say, or that the types
suggest. -/
theorem Repeats.binding (h : Repeats document scope t i r body field options)
    (hbefore : collected document schemaName scope = .ok before) :
    ∃ isCondition, .foreignInput body.name field.name
      (((saidUnder options "foreignKey").or (saidUnder options "myKey")).getD (suggestedKey t r))
      isCondition ∈ before.bindings := by
  obtain ⟨d, hd, hname, hoptions⟩ := h.directive
  have hsite : Sdl.Site.field (.input body) (.input field) ∈ document.sites :=
    Sdl.Document.field_mem_sites.2 ⟨h.type, List.mem_map_of_mem h.member⟩
  have hoccurs : (Sdl.Site.field (.input body) (.input field), d) ∈ occurrences document :=
    mem_occurrences.2 ⟨hsite, hd⟩
  have htopic : topicOf? scope (.field (.input body) (.input field), d) = some .binding := by
    have hscope : (Sdl.Site.field (.input body) (.input field)).inScope scope = true := h.inScope
    have hconnection : d.name = "connection" := hname
    simp [topicOf?, hscope, hconnection]
  have habout : (Sdl.Site.field (.input body) (.input field), d)
      ∈ about scope .binding (occurrences document) :=
    List.mem_filter.2 ⟨hoccurs, by simpa using htopic⟩
  obtain ⟨i, hat⟩ := List.getElem?_of_mem habout
  obtain ⟨b, hb, hbinding⟩ :=
    exists_getElem?_of_forall₂ (declares_of_collected hbefore).fields.bindings hat
  rcases hbinding with ⟨_, _, hother, -⟩ | ⟨body', field', shape, hsame, hshape, rfl⟩
  · cases hother
  · cases hsame
    have hbase : withoutInputEnding shape.base = r.target := by
      rw [base_of_shapeOf hshape, h.base, withoutInputEnding_append]
    have hmem := List.mem_of_getElem? hb
    rw [foreignInput, h.bound, hbase, hoptions] at hmem
    exact ⟨_, hmem⟩

/-- What the options of a relation to one item declare, and the attribute that the table makes of
it. -/
theorem Repeats.exists_declared (h : Repeats document scope t i r body field options)
    (hbefore : collected document schemaName scope = .ok before)
    (ht : t ∈ before.classify.1.tables) (hnodup : before.tableNames.Nodup) :
    ∃ declared, Relation.declared r.field r.shape options = .ok declared ∧
      t.myKey r = (present declared.myKey).getD ((present (declared.foreignKey.or
        (t.takenFrom (before.relationsIn r.target) i r))).getD (suggestedKey t r)) := by
  have htable := table?_of_mem_classify hnodup ht
  obtain ⟨t₀, declared, htable₀, hrelation₀, hkey⟩ :=
    foreignKey_of_classify hnodup htable h.relation h.toOne
  have hstated : declared.stated = r.stated := by
    have hat := congrArg (·[i]?) (stated_of_classify htable₀ htable)
    simp only [List.getElem?_map, h.relation, hrelation₀, Option.map_some,
      Option.some.injEq] at hat
    exact hat.symm
  simp only [Relation.stated, Relation.mk.injEq] at hstated
  obtain ⟨hfield, -, hshape, -, -, hmine, -⟩ := hstated
  refine ⟨declared, ?_, ?_⟩
  · obtain ⟨o, hat, hoptions⟩ := h.declared
    have htells := (declares_of_collected hbefore).items t₀ (mem_of_table? htable₀).1
    rw [← name_of_table? htable₀] at hat
    obtain ⟨other, hother, d, f, shape, -, -, hdeclared⟩ :=
      exists_getElem?_of_forall₂ htells.relations hat
    rw [hrelation₀, Option.some.injEq] at hother
    subst hother
    obtain ⟨hfield', -, hshape'⟩ := Relation.ends_of_declared hdeclared
    rwa [← hfield, ← hshape, hfield', hshape', ← hoptions]
  · rw [Table.myKey, h.toOne, if_neg Bool.false_ne_true, Table.foreignKey_of_toOne t h.toOne, hkey,
      hmine, suggestedKey]

/-- **What takes the place of a field of an input type that repeats a relation is the attribute of
the relation, unless the two names come apart (`ComesApart`).** -/
theorem foreignInput_eq_iff (hbefore : collected document schemaName scope = .ok before)
    (hcompile : (compileDocument schemaName scope document).outcome = .ok k)
    (ht : t ∈ k.catalog.tables) (h : Repeats document scope t i r body field options) :
    ∃ declared key isCondition, Relation.declared r.field r.shape options = .ok declared ∧
      Fragment.ofEdit k.catalog.publishedLocation
        (foreignInputEdit body.name field.name key isCondition) ∈ k.fragments ∧
      (key = t.myKey r ↔ ¬ ComesApart options declared
        (t.takenFrom (before.relationsIn r.target) i r) (suggestedKey t r)) := by
  obtain ⟨hgather, hemit⟩ := of_compileDocument hcompile
  obtain ⟨hnodup, hcatalog⟩ := eq_classify_of_gather hbefore hgather
  obtain ⟨declared, hdeclared, hkey⟩ := h.exists_declared hbefore (hcatalog ▸ ht) hnodup
  obtain ⟨isCondition, hbinding⟩ := h.binding hbefore
  have hbound : _ ∈ k.catalog.bindings :=
    hcatalog ▸ (kin_classify before).bindings.symm ▸ hbinding
  refine ⟨declared, _, isCondition, hdeclared,
    mem_of_binding hemit hbound _ (List.mem_singleton_self _), ?_⟩
  rw [hkey]
  exact name_eq_iff hdeclared

/-- A directive that says the name of a relation between authors and posts. -/
def namedP : Sdl.Directive := ⟨"connection", [("name", .string "P" false)]⟩

/-- A field of an input type that leads to an author. -/
def draftAuthor : Sdl.InputField := ⟨none, "author", .named "AuthorInput", none, [namedP]⟩

/-- An input type for posts, with their authors. -/
def postDraft : Sdl.InputType where
  description := none
  name := "PostDraft"
  directives := [⟨"modelInput", [("name", .string "Post" false)]⟩]
  fields := [draftAuthor]

/-- Posts that are found by a foreign key which the authors give, and an input type for them. -/
def draftedPosts : Sdl.Document := ⟨writtenPosts.definitions ++ [.input postDraft]⟩

theorem repeats_postDraft (hrelation : t.relations[0]? = some r) (hone : r.toMany = false)
    (hname : t.name = "Post") (htarget : r.target = "Author") :
    Repeats draftedPosts none t 0 r postDraft draftAuthor namedP.entries where
  relation := hrelation
  toOne := hone
  declared := by
    rw [hname]
    exact ⟨_, rfl, rfl⟩
  type := by
    rw [Sdl.Document.mem_declarations]
    exact List.mem_append_right _ (List.mem_singleton_self _)
  inScope := rfl
  bound := by
    rw [hname]
    rfl
  member := List.mem_singleton_self _
  base := by
    rw [htarget]
    rfl
  directive := ⟨namedP, List.mem_singleton_self _, rfl, rfl⟩

/-- The author of a draft is given by another attribute than that of a post. -/
theorem draftedPosts_apart : ∃ k t r key isCondition,
    (compileDocument "schema.graphql" none draftedPosts).outcome = .ok k ∧ t ∈ k.catalog.tables ∧
      r ∈ t.relations ∧ t.myKey r = "writerId" ∧ key ≠ t.myKey r ∧
      Fragment.ofEdit k.catalog.publishedLocation
        (foreignInputEdit "PostDraft" "author" key isCondition) ∈ k.fragments := by
  have hcompiles : Outcome.Holds (compileDocument "schema.graphql" none draftedPosts).outcome
      fun _ => True := by
    decide +kernel
  have hfacts : Outcome.Holds (collected draftedPosts "schema.graphql" none) fun before =>
      ∃ t ∈ before.classify.1.tables, t.name = "Post" ∧ ∃ r ∈ t.relations[0]?,
        r.toMany = false ∧ r.field = "author" ∧ r.target = "Author" ∧
        r.shape = { base := "Author" } ∧ t.myKey r = "writerId" ∧
        t.takenFrom (before.relationsIn r.target) 0 r = some "writerId" := by
    decide +kernel
  have hoptions : Outcome.Holds (Relation.declared "author" { base := "Author" } namedP.entries)
      fun declared => declared.foreignKey = none ∧ declared.myKey = none := by
    decide +kernel
  obtain ⟨k, hcompile, -⟩ := hcompiles
  obtain ⟨before, hbefore, t, ht, hname, r, hrelation, hone, hfield, htarget, hshape, hkey,
    htaken⟩ :=
    hfacts
  obtain ⟨-, hcatalog⟩ := eq_classify_of_gather hbefore (of_compileDocument hcompile).1
  rw [← hcatalog] at ht
  obtain ⟨declared, key, isCondition, hdeclared, hemitted, hiff⟩ :=
    foreignInput_eq_iff hbefore hcompile ht
      (repeats_postDraft hrelation hone hname htarget)
  refine ⟨k, t, r, key, isCondition, hcompile, ht, List.mem_of_getElem? hrelation, hkey, ?_,
    hemitted⟩
  rw [hfield, hshape] at hdeclared
  obtain ⟨hforeign, hmine⟩ := hoptions.of_eq_ok hdeclared
  have hgiven : (present declared.myKey).or (present (declared.foreignKey.or (some "writerId")))
      = some "writerId" := by
    rw [hforeign, hmine]
    rfl
  rw [Ne, hiff, not_not, htaken, suggestedKey, hname, htarget]
  exact .unheard rfl rfl hgiven (by decide)

end Surface

end SchemaLoom
