/-
What the directives of a document declare.

Registration looks at tables only, and everything else is collected when all tables are known; so
where in a document a table is declared does not matter to what is collected for it.  `Declares`
says what the outcome is: the tables are the types that are said to be tables, in document order,
and their items are what the occurrences in scope say.

Registration is an induction on the occurrences, with the names taken so far in front of those to
come (`register_bodies`): it either takes all types or stops at the first whose name is taken, and
a name is taken twice just if two occurrences say that types of this name are tables.  What is
registered reflects no occurrence yet, and from there `Reflects.run` goes through all of them.
-/
import SchemaLoom.Proofs.Catalog.Collection

namespace SchemaLoom

open Sdl (Site Scope Document)

namespace Catalog

variable {scope : Scope} {o : Occurrence} {c c' : Catalog} {os : List Occurrence} {t t' : Table}
  {bodies : List Sdl.ObjectType}

/-! ### Registration

The step of registration does nothing at most occurrences, and at the others it appends a table
whose name must be new.  `bodyOf?` says which occurrences those are, so that the run is a matter
of the types that are left after a `filterMap`.
-/

/-- The type that an occurrence registers as a table. -/
def bodyOf? (scope : Scope) (o : Occurrence) : Option Sdl.ObjectType :=
  match topicOf? scope o, o.1 with
  | some .table, .type (.object body) => some body
  | _, _ => none

/-- What is about tables stands at an object type that is in scope. -/
theorem topicOf?_eq_table_iff :
    topicOf? scope o = some .table ↔ ∃ body, o.1 = .type (.object body) ∧ o.2.name = "model" ∧
      o.1.inScope scope = true := by
  obtain ⟨site, directive⟩ := o
  constructor
  · intro h
    unfold topicOf? at h
    split at h
    next hscope =>
      dsimp only at h
      split at h
      next body =>
        split_ifs at h with hname <;> cases h
        exact ⟨body, rfl, hname, hscope⟩
      · split_ifs at h <;> cases h
      · split_ifs at h
        cases h
      · cases h
    next => cases h
  · rintro ⟨body, rfl, hname, hscope⟩
    dsimp only at hname hscope
    simp [topicOf?, hname, hscope]

theorem bodyOf?_eq_some_iff {body : Sdl.ObjectType} :
    bodyOf? scope o = some body ↔ o.1 = .type (.object body) ∧ o.2.name = "model" ∧
      o.1.inScope scope = true := by
  constructor
  · intro h
    unfold bodyOf? at h
    split at h
    next htopic hsite =>
      cases h
      obtain ⟨other, -, hplays⟩ := topicOf?_eq_table_iff.1 htopic
      exact ⟨hsite, hplays⟩
    next => cases h
  · rintro ⟨hsite, hplays⟩
    unfold bodyOf?
    rw [topicOf?_eq_table_iff.2 ⟨body, hsite, hplays⟩, hsite]

/-- What registration makes of one occurrence. -/
theorem outcome_step_register (c : Catalog) (o : Occurrence) :
    (step .register c o).outcome
      = (bodyOf? c.scope o).elim (.ok c) fun body => (c.registerType body).outcome := by
  obtain ⟨site, directive⟩ := o
  unfold step
  cases hrole : roleOf? c.scope .register (site, directive) with
  | none =>
    have hbody : bodyOf? c.scope (site, directive) = none := by
      rw [Option.eq_none_iff_forall_ne_some]
      intro body hsome
      obtain ⟨hsite, hname, hscope⟩ := bodyOf?_eq_some_iff.1 hsome
      dsimp only at hsite hname
      have hplays : roleOf? c.scope .register (site, directive) = some .model :=
        roleOf?_eq_some_iff.2 ⟨hname.symm, rfl, by rw [hsite]; rfl, hscope⟩
      rw [hrole] at hplays
      cases hplays
    rw [hbody]
    rfl
  | some role =>
    obtain ⟨hname, hphase, hfits, hscope⟩ := of_roleOf? hrole
    cases role with
    | model =>
      cases site with
      | field d f => cases hfits
      | type d =>
        cases d with
        | input body => cases hfits
        | object body =>
          rw [bodyOf?_eq_some_iff.2 ⟨rfl, hname.symm, hscope⟩]
          rfl
    | _ => cases hphase

/-- **Registration takes the types in order, up to the first whose name is taken.** -/
theorem register_bodies (hnodup : c.tableNames.Nodup) (os : List Occurrence) :
    ((c.tableNames ++ (os.filterMap (bodyOf? c.scope)).map (·.name)).Nodup ∧
        os.foldl (advance .register) (.ok c) = .ok { c with
          tables := c.tables ++
            (os.filterMap (bodyOf? c.scope)).map fun definition => { definition } }) ∨
      ∃ name, 2 ≤ (c.tableNames ++ (os.filterMap (bodyOf? c.scope)).map (·.name)).count name ∧
        os.foldl (advance .register) (.ok c) = .error (.repeatedTable name) := by
  induction os generalizing c with
  | nil =>
    refine Or.inl ⟨by simpa using hnodup, ?_⟩
    simp
  | cons o os ih =>
    rw [List.foldl_cons, advance, Outcome.ok_bind, outcome_step_register]
    cases hbody : bodyOf? c.scope o with
    | none =>
      rw [List.filterMap_cons_none hbody, Option.elim_none]
      exact ih hnodup
    | some body =>
      rw [List.filterMap_cons_some hbody, Option.elim_some, outcome_registerType, List.map_cons]
      cases htaken : c.table? body.name with
      | some t =>
        obtain ⟨ht, hname⟩ := mem_of_table? htaken
        have hbefore : 0 < c.tableNames.count body.name :=
          List.count_pos_iff.2 (List.mem_map.2 ⟨t, ht, hname⟩)
        refine Or.inr ⟨body.name, ?_, foldl_advance_error _ _ _⟩
        rw [List.count_append, List.count_cons_self]
        omega
      | none =>
        have hnext := nodup_tableNames_register (t := { definition := body }) hnodup htaken
        have hnames : c.tableNames ++ body.name :: (os.filterMap (bodyOf? c.scope)).map (·.name)
            = (c.tables ++ [({ definition := body } : Table)]).map (·.name)
                ++ (os.filterMap (bodyOf? c.scope)).map (·.name) := by
          simp [tableNames, Table.name]
        rw [hnames]
        rcases ih (c := { c with tables := c.tables ++ [{ definition := body }] }) hnext with
          ⟨hall, hend⟩ | ⟨name, htwice, hend⟩
        · refine Or.inl ⟨hall, hend.trans ?_⟩
          simp
        · exact Or.inr ⟨name, htwice, hend⟩

theorem filterMap_bodyOf? (scope : Scope) (os : List Occurrence) :
    (os.filterMap (bodyOf? scope)).map (·.name) = (about scope .table os).map (·.1.typeName) := by
  unfold about
  induction os with
  | nil => rfl
  | cons o os ih =>
    by_cases htopic : topicOf? scope o = some .table
    · obtain ⟨body, hsite, hplays⟩ := topicOf?_eq_table_iff.1 htopic
      rw [List.filterMap_cons_some (bodyOf?_eq_some_iff.2 ⟨hsite, hplays⟩), List.map_cons, ih,
        List.filter_cons_of_pos (by simpa using htopic), List.map_cons, hsite]
      rfl
    · have hnone : bodyOf? scope o = none := by
        unfold bodyOf?
        split
        next htable _ => exact absurd htable htopic
        next => rfl
      rw [List.filterMap_cons_none hnone, ih, List.filter_cons_of_neg (by simpa using htopic)]

/-- How often a name is registered is how many occurrences say that the type is a table. -/
theorem count_bodies (scope : Scope) (os : List Occurrence) (name : String) :
    ((os.filterMap (bodyOf? scope)).map (·.name)).count name
      = (aboutType scope .table name os).length := by
  rw [filterMap_bodyOf?, List.count_eq_countP, List.countP_map, List.countP_eq_length_filter]
  rfl

/-! ### Tables of a document

The occurrences of a document come type by type.  A type that says twice that it is a table would
be registered twice, and so would fail; that is why the names need to be distinct before the types
that are registered can be compared with those of the document.
-/

/-- Does a directive that is in scope say that `body` is a table? -/
def saysTable (scope : Scope) (body : Sdl.ObjectType) : Bool :=
  (Site.type (.object body)).inScope scope && body.directives.any fun d => d.name = "model"

/-- The object types among types, in order. -/
def objectsOf (ds : List Sdl.Declaration) : List Sdl.ObjectType :=
  ds.filterMap fun
    | .object body => some body
    | .input _ => none

theorem objectsOf_declarations (document : Document) :
    objectsOf document.declarations = document.objects := by
  unfold objectsOf Document.objects Document.declarations
  rw [List.filterMap_filterMap]
  refine List.filterMap_congr fun definition _ => ?_
  cases definition <;> rfl

theorem mem_occurrencesOf {d : Sdl.Declaration} :
    o ∈ occurrencesOf d ↔ o.1 ∈ d.sites ∧ o.2 ∈ o.1.directives := by
  obtain ⟨site, directive⟩ := o
  simp [occurrencesOf]

/-- The types that the occurrences at one type register are this type. -/
theorem mem_bodiesOf {d : Sdl.Declaration} {body : Sdl.ObjectType} :
    body ∈ (occurrencesOf d).filterMap (bodyOf? scope)
      ↔ d = .object body ∧ saysTable scope body = true := by
  rw [List.mem_filterMap]
  constructor
  · rintro ⟨⟨site, directive⟩, ho, hbody⟩
    obtain ⟨hsites, hdirectives⟩ := mem_occurrencesOf.1 ho
    obtain ⟨hsite, hname, hscope⟩ := bodyOf?_eq_some_iff.1 hbody
    dsimp only at hsites hdirectives hsite hname hscope
    subst hsite
    rcases List.mem_cons.1 hsites with hsame | hfield
    · cases hsame
      refine ⟨rfl, ?_⟩
      rw [saysTable, hscope, Bool.true_and, List.any_eq_true]
      exact ⟨directive, hdirectives, by simpa using hname⟩
    · obtain ⟨f, -, hsame⟩ := List.mem_map.1 hfield
      cases hsame
  · rintro ⟨rfl, hsaid⟩
    obtain ⟨hscope, hany⟩ := (Bool.and_eq_true _ _).mp hsaid
    obtain ⟨directive, hdirective, hname⟩ := List.any_eq_true.1 hany
    exact ⟨(.type (.object body), directive),
      mem_occurrencesOf.2 ⟨List.mem_cons_self, hdirective⟩,
      bodyOf?_eq_some_iff.2 ⟨rfl, by simpa using hname, hscope⟩⟩

/-- **If no name is taken twice, the types that are registered are those that are said to be
tables** (`saysTable`). -/
theorem bodies_of_declarations (ds : List Sdl.Declaration)
    (hnodup : (((ds.flatMap occurrencesOf).filterMap (bodyOf? scope)).map (·.name)).Nodup) :
    (ds.flatMap occurrencesOf).filterMap (bodyOf? scope)
      = (objectsOf ds).filter (saysTable scope) := by
  induction ds with
  | nil => rfl
  | cons d ds ih =>
    rw [List.flatMap_cons, List.filterMap_append] at hnodup ⊢
    rw [List.map_append] at hnodup
    -- The second directive of a type would register it again, so there is one for each type.
    have hfirst : ((occurrencesOf d).filterMap (bodyOf? scope)).Nodup :=
      (List.pairwise_map.1 (List.nodup_append.1 hnodup).1).imp fun hne hsame =>
        hne (congrArg Sdl.ObjectType.name hsame)
    rw [ih (List.nodup_append.1 hnodup).2.1]
    cases d with
    | input body =>
      have hnone : (occurrencesOf (.input body)).filterMap (bodyOf? scope) = [] := by
        rw [List.eq_nil_iff_forall_not_mem]
        intro other hother
        cases (mem_bodiesOf.1 hother).1
      rw [hnone]
      rfl
    | object body =>
      have hone : (occurrencesOf (.object body)).filterMap (bodyOf? scope)
          = [body].filter (saysTable scope) := by
        have hall : ∀ other ∈ (occurrencesOf (.object body)).filterMap (bodyOf? scope),
            other = body := by
          intro other hother
          cases (mem_bodiesOf.1 hother).1
          rfl
        cases hsaid : saysTable scope body with
        | true =>
          rw [List.filter_singleton, hsaid]
          exact eq_singleton_of_nodup hfirst hall (mem_bodiesOf.2 ⟨rfl, hsaid⟩)
        | false =>
          rw [List.filter_singleton, hsaid, cond_false, List.eq_nil_iff_forall_not_mem]
          intro other hother
          have his := (mem_bodiesOf.1 (hall other hother ▸ hother)).2
          rw [hsaid] at his
          cases his
      rw [hone, ← List.filter_append]
      rfl

/-! ### Documents

Two phases make one catalog.  The tables are those of the first phase, and the second changes what
they hold but not which they are.
-/

/-- `c` is what the directives of `document` declare within `scope`. -/
structure Declares (document : Document) (scope : Scope) (c : Catalog) : Prop where
  /-- The tables are the types that are said to be tables, in document order. -/
  tables : c.tables.map (·.definition) = document.objects.filter (saysTable scope)
  items : ∀ t ∈ c.tables, Tells scope (occurrences document) t
  fields : TellsFields scope (occurrences document) c

/-- A catalog of empty tables, no two of one name, reflects no occurrence at all. -/
theorem reflects_registered (document : Document) (schemaName : String) (scope : Scope)
    (hnodup : (bodies.map (·.name)).Nodup) :
    Reflects bodies []
      { document, schemaName, scope, tables := bodies.map fun definition => { definition } } := by
  refine ⟨?_, ?_, ?_, ⟨.nil, rfl, fun _ _ => .nil⟩⟩
  · rw [tableNames, List.map_map]
    exact hnodup
  · rw [List.map_map]
    exact List.map_id' _
  · intro t ht
    obtain ⟨body, -, rfl⟩ := List.mem_map.1 ht
    exact ⟨.nil, .nil, .nil, rfl, [], .nil, rfl⟩

theorem fault_eq_some_iff {p : Progress} {fault : Fault} :
    p.fault = some fault ↔ p.report.outcome = .error fault := by
  unfold Progress.report
  cases p.fault <;> simp

/-- What is registered are the types that are said to be tables, before anything is said of them. -/
theorem reflects_of_registered {document : Document} {schemaName : String} {scope : Scope}
    {registered : Catalog}
    (h : (dispatch { document, schemaName, scope } .register).report.outcome = .ok registered) :
    registered.document = document ∧ registered.scope = scope ∧
      Reflects (document.objects.filter (saysTable scope)) [] registered := by
  have hrun : (dispatch { document, schemaName, scope } .register).report.outcome = _ :=
    outcome_run _ _ _
  rw [h] at hrun
  rcases register_bodies (c := { document, schemaName, scope }) List.nodup_nil
      (occurrences document) with ⟨hnodup, hend⟩ | ⟨name, -, hend⟩
  · rw [hend] at hrun
    cases hrun
    have hall : occurrences document = document.declarations.flatMap occurrencesOf := by
      rw [occurrences_eq_flatten, List.flatMap_def]
    rw [hall] at hnodup
    have hbodies : _ = (objectsOf document.declarations).filter (saysTable scope) :=
      bodies_of_declarations document.declarations hnodup
    rw [← hall, objectsOf_declarations] at hbodies
    refine ⟨rfl, rfl, ?_⟩
    rw [← hbodies]
    exact reflects_registered document schemaName scope (by rwa [← hall] at hnodup)
  · rw [hend] at hrun
    cases hrun

/-- What is collected is what the directives of a document declare. -/
theorem declares_of_collected {document : Document} {schemaName : String} {scope : Scope}
    (hcollected : collected document schemaName scope = .ok c) : Declares document scope c := by
  obtain ⟨-, -, hscope, -⟩ := rooted_of_collected hcollected
  unfold collected at hcollected
  obtain ⟨registered, hregistered, hcollected⟩ := Outcome.of_bind_eq_ok hcollected
  obtain ⟨hdocument, -, hreflects⟩ := reflects_of_registered hregistered
  rw [dispatch, hdocument] at hcollected
  have hsites : ∀ o ∈ occurrences document, o.1 ∈ document.sites := fun o ho =>
    (mem_occurrences.1 ho).1
  have hdone := hreflects.run hsites hcollected
  subst hscope
  exact ⟨hdone.definitions, hdone.tables, hdone.fields⟩

/-- **Registration fails just if two directives in scope say that types of one name are tables, and
otherwise what is collected is what the directives declare, wherever they stand (`Declares`).** -/
theorem collected_declares (document : Document) (schemaName : String) (scope : Scope) :
    ((∃ fault, (dispatch { document, schemaName, scope } .register).fault = some fault) ↔
        ∃ name, 2 ≤ (aboutType scope .table name (occurrences document)).length) ∧
      (∀ fault, (dispatch { document, schemaName, scope } .register).fault = some fault →
        ∃ name, fault = .repeatedTable name ∧
          2 ≤ (aboutType scope .table name (occurrences document)).length) ∧
      ∀ c, collected document schemaName scope = .ok c → Declares document scope c := by
  have hrun : (dispatch { document, schemaName, scope } .register).report.outcome = _ :=
    outcome_run _ _ _
  simp only [← count_bodies, fault_eq_some_iff]
  rcases register_bodies (c := { document, schemaName, scope }) List.nodup_nil
      (occurrences document) with ⟨hnodup, hend⟩ | ⟨name, htwice, hend⟩
  · rw [hend] at hrun
    have honce : ∀ name, ¬ 2 ≤ (((occurrences document).filterMap (bodyOf? scope)).map
        (·.name)).count name := by
      intro name
      have hmost : (((occurrences document).filterMap (bodyOf? scope)).map
          (·.name)).count name ≤ 1 := List.nodup_iff_count_le_one.1 hnodup name
      omega
    refine ⟨⟨?_, fun ⟨name, htwice⟩ => absurd htwice (honce name)⟩, ?_,
      fun c => declares_of_collected⟩
    · rintro ⟨fault, hfault⟩
      rw [hrun] at hfault
      cases hfault
    · intro fault hfault
      rw [hrun] at hfault
      cases hfault
  · rw [hend] at hrun
    have htwice :
        2 ≤ (((occurrences document).filterMap (bodyOf? scope)).map (·.name)).count name :=
      htwice
    refine ⟨⟨fun _ => ⟨name, htwice⟩, fun _ => ⟨_, hrun⟩⟩, ?_, fun c => declares_of_collected⟩
    intro fault hfault
    rw [hrun] at hfault
    cases hfault
    exact ⟨name, rfl, htwice⟩

/-- Posts whose key stands before what makes them a table, beside users that are none. -/
def scatteredPosts : String :=
  "type Post @key(fields: [\"id\"]) @model \x7b id: ID @unique @unique \x7d
  type User @key(fields: [\"id\"]) \x7b id: ID \x7d"

theorem scatteredPosts_declared : ∃ document c, Sdl.Document.parse scatteredPosts = .ok document ∧
    collected document "schema.graphql" none = .ok c ∧ c.tableNames = ["Post"] ∧
    c.tables.map (·.uniqueFields) = [["id"]] ∧ Declares document none c := by
  have hfacts : Outcome.Holds (Sdl.Document.parse scatteredPosts) fun document =>
      Outcome.Holds (collected document "schema.graphql" none) fun c =>
        c.tableNames = ["Post"] ∧ c.tables.map (·.uniqueFields) = [["id"]] := by
    decide +kernel
  obtain ⟨document, hparse, c, hcollected, hnames, hunique⟩ := hfacts
  exact ⟨document, c, hparse, hcollected, hnames, hunique,
    (collected_declares document "schema.graphql" none).2.2 c hcollected⟩

end Catalog

end SchemaLoom
