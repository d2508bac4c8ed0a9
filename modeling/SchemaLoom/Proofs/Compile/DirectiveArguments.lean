/-
Arguments of directives in a document.

A rule and a binding to a function say something wherever they stand.  A key, a relation and a
tenancy are said of a table, and at a type that is none they are passed over with a notice,
whatever their arguments are.  So for each occurrence the document alone tells whether its
arguments count, and by which signature (`signature?`).

An occurrence whose arguments count reads them before it changes anything (`blamed_of_step`).
Whether it is at fault has nothing to do with what has been collected so far, but for the tables,
and those are settled by registration.  The run is therefore an induction that only looks for the
first occurrence whose arguments are not admitted: what is in front of it is collected, and what
is behind it is never reached (`blamed_of_collected`).

An occurrence may be at fault for other reasons too, such as a key of a name that is taken.
Those in front of the first whose arguments are not admitted have none, if they are collected.
-/
import SchemaLoom.Proofs.Catalog.ArgumentForms
import SchemaLoom.Proofs.Catalog.Dispatch

namespace SchemaLoom

open Sdl (Document Scope Site)
open Form (Signature)

namespace Catalog

/-! ### Whose arguments count

Directives that are passed over may have any arguments: those out of scope, those at other sites,
and those on a type that is no table (`signature?`).
-/

/-- Does `document` say within `scope` that a type of the name `name` is a table? -/
def isTable (document : Document) (scope : Scope) (name : String) : Bool :=
  document.objects.any fun body => body.name = name && saysTable scope body

/-- The signature by which the arguments of an occurrence count, if they do. -/
def signature? (document : Document) (scope : Scope) (o : Occurrence) : Option Signature :=
  let ofTable := fun s => if isTable document scope o.1.typeName then some s else none
  match roleOf? scope .collect o, o.1 with
  | some .key, _ => ofTable Key.signature
  | some .connection, .field _ (.output _) => ofTable Relation.signature
  | some .multiTenancy, _ => ofTable Tenancy.signature
  | some .auth, _ => some Access.Rule.signature
  | some .function, _ => some functionSignature
  | _, _ => none

/-- The fault is about the arguments of `o`, or about the type of its field if that has no shape. -/
inductive Blames (o : Occurrence) : Fault → Prop where
  | arguments (fault : FormFault) : Blames o (.badArguments o.2.name o.1.label fault)
  | rule (hname : o.2.name = Role.auth.name) (fault : Access.RuleFault) :
    Blames o (.badRule o.1.label fault)
  | function (hname : o.2.name = Role.function.name) : Blames o (.functionUnnamed o.1.label)
  | shape {d : Sdl.Declaration} {field : Sdl.DeclaredField} {fault : Fault}
    (hname : o.2.name = Role.connection.name) (hsite : o.1 = .field d field)
    (hshape : shapeOf field.type = .error fault) : Blames o fault

/-! ### One occurrence

Every way in which an occurrence can be at fault on account of its arguments is a fault of its
form.  What else may be wrong with it depends on the catalog.
-/

variable {c : Catalog} {o : Occurrence} {s : Signature} {document : Document} {scope : Scope}

/-- A fault of the arguments is found before the table changes. -/
theorem blamed_of_checked {α : Type} {role : Role} {t : Table} {check : Form.Check α}
    {next : Table → α → Except Fault Table} (hname : role.name = o.2.name)
    (htable : c.table? o.1.typeName = some t) (hcheck : ¬ ∃ a, check = .ok a) :
    ∃ fault, (c.onTable role o.1 fun t => checked role o.1 check >>= next t).outcome =
      .error fault ∧
      Blames o fault := by
  unfold onTable
  rw [htable]
  dsimp only
  rw [Report.outcome_bind, Report.outcome_lift]
  cases check with
  | ok a => exact absurd ⟨a, rfl⟩ hcheck
  | error fault =>
    refine ⟨.badArguments role.name o.1.label fault, rfl, ?_⟩
    rw [hname]
    exact .arguments fault

/-- A relation of a table is at fault if its field has no shape, and else if its arguments are not
admitted. -/
theorem blamed_of_relation {d : Sdl.Declaration} {field : Sdl.Field} {directive : Sdl.Directive}
    {t : Table} (hname : Role.connection.name = directive.name) (htable : c.table? d.name = some t)
    (hrefused : ¬ Relation.signature.admits directive.entries = true) :
    ∃ fault, (c.act .connection (.field d (.output field)) directive.entries).outcome =
      .error fault ∧
      Blames (.field d (.output field), directive) fault := by
  have hact : (c.act .connection (.field d (.output field)) directive.entries).outcome
      = shapeOf field.type >>= fun shape => (c.onTable .connection (.field d (.output field))
          (declareRelation (.field d (.output field)) (.output field) shape
            directive.entries)).outcome := by
    cases d <;> exact Report.outcome_bind _ _
  rw [hact]
  cases hshape : shapeOf field.type with
  | error fault => exact ⟨fault, rfl, .shape hname.symm rfl hshape⟩
  | ok shape =>
    refine blamed_of_checked (o := (.field d (.output field), directive)) hname htable ?_
    rintro ⟨r, hdeclared⟩
    exact hrefused (Relation.admits_of_declared hdeclared)

theorem blamed_of_function {d : Sdl.Declaration} {field : Sdl.Field} {directive : Sdl.Directive}
    (hname : Role.function.name = directive.name)
    (hrefused : ¬ functionSignature.admits directive.entries = true) :
    ∃ fault, (c.act .function (.field d (.output field)) directive.entries).outcome = .error fault ∧
      Blames (.field d (.output field), directive) fault := by
  have hact : (c.act .function (.field d (.output field)) directive.entries).outcome
      = functionBinding (.field d (.output field)) field directive.entries >>= fun b =>
          .ok (c.bind b) := by
    cases d <;> exact Report.outcome_bind _ _
  rw [hact]
  cases hbinding : functionBinding (.field d (.output field)) field directive.entries with
  | ok b => exact absurd ((exists_functionBinding_iff _ _ _).1 ⟨b, hbinding⟩) hrefused
  | error fault =>
    refine ⟨fault, rfl, ?_⟩
    unfold functionBinding at hbinding
    split at hbinding <;> cases hbinding
    exact .function hname.symm

theorem blamed_of_rule {site : Site} {directive : Sdl.Directive}
    (hname : Role.auth.name = directive.name)
    (hrefused : ¬ Access.Rule.signature.admits directive.entries = true) :
    ∃ fault, (c.act .auth site directive.entries).outcome = .error fault ∧
      Blames (site, directive) fault := by
  unfold act
  dsimp only
  rw [Report.outcome_bind, Report.outcome_lift]
  cases hrule : declareRule site directive.entries with
  | ok rule =>
    exact absurd (Access.Rule.admits_of_declared (Outcome.of_mapError_eq_ok hrule)) hrefused
  | error fault =>
    obtain ⟨cause, -, rfl⟩ := Outcome.of_mapError_eq_error hrule
    exact ⟨_, rfl, .rule hname.symm cause⟩

/-- **An occurrence whose arguments count and are not admitted is at fault for them (`Blames`).** -/
theorem blamed_of_step
    (htables : ∀ name, isTable document c.scope name = true → ∃ t, c.table? name = some t)
    (hcounts : signature? document c.scope o = some s) (hnot : s.admits o.2.entries = false) :
    ∃ fault, (step .collect c o).outcome = .error fault ∧ Blames o fault := by
  have hrefused : ¬ s.admits o.2.entries = true := by simp [hnot]
  obtain ⟨site, directive⟩ := o
  unfold signature? at hcounts
  cases hrole : roleOf? c.scope .collect (site, directive) with
  | none =>
    rw [hrole] at hcounts
    cases hcounts
  | some role =>
    obtain ⟨hname, -, hfits, -⟩ := of_roleOf? hrole
    have hstep : (step .collect c (site, directive)).outcome
        = (c.act role site directive.entries).outcome := by
      unfold step
      rw [hrole]
      rfl
    rw [hrole] at hcounts
    rw [hstep]
    -- a role fits few kinds of sites, and at the others no arguments count
    cases role with
    | model => cases hcounts
    | unique => cases hcounts
    | key =>
      dsimp only at hcounts
      split_ifs at hcounts with htable
      cases hcounts
      obtain ⟨t, hfound⟩ := htables _ htable
      refine blamed_of_checked (o := (site, directive)) hname hfound fun hread => ?_
      exact hrefused ((Key.reads_read _).1 hread)
    | multiTenancy =>
      dsimp only at hcounts
      split_ifs at hcounts with htable
      cases hcounts
      obtain ⟨t, hfound⟩ := htables _ htable
      refine blamed_of_checked (o := (site, directive)) hname hfound fun hread => ?_
      exact hrefused ((Tenancy.reads_read _).1 hread)
    | connection =>
      rcases site with d | ⟨d, field | field⟩
      · cases hcounts
      · dsimp only at hcounts
        split_ifs at hcounts with htable
        cases hcounts
        obtain ⟨t, hfound⟩ := htables _ htable
        exact blamed_of_relation hname hfound hrefused
      · cases hcounts
    | function =>
      rcases site with d | ⟨d, field | field⟩
      · cases hfits
      · cases hcounts
        exact blamed_of_function hname hrefused
      · cases hfits
    | auth =>
      cases hcounts
      exact blamed_of_rule hname hrefused

/-! ### Collection -/

/-- What a document says to be a table is one when its tables are registered, and stays one. -/
theorem exists_table_of_reflects {os : List Occurrence} {name : String}
    (h : Reflects (document.objects.filter (saysTable scope)) os c)
    (htable : isTable document scope name = true) : ∃ t, c.table? name = some t := by
  obtain ⟨body, hbody, hsaid⟩ := List.any_eq_true.1 htable
  obtain ⟨hname, hsaid⟩ := (Bool.and_eq_true _ _).mp hsaid
  have hmem : body ∈ c.tables.map (·.definition) := by
    rw [h.definitions]
    exact List.mem_filter.2 ⟨hbody, hsaid⟩
  obtain ⟨t, ht, rfl⟩ := List.mem_map.1 hmem
  exact ⟨t, (table?_eq_some_iff h.names).2 ⟨ht, of_decide_eq_true hname⟩⟩

theorem scope_of_run {phase : Phase} {os : List Occurrence} {c c' : Catalog}
    (hrun : (run phase c os).report.outcome = .ok c') : c'.scope = c.scope :=
  run_invariant (fun next => next.scope = c.scope)
    (fun _ _ _ _ hnext hstep => (others_of_step hstep).1.trans hnext) rfl hrun

/-- **The first occurrence whose arguments are not admitted ends collection.** -/
theorem blamed_of_collected {schemaName : String} {registered : Catalog}
    {before after : List Occurrence}
    (hoccurrences : occurrences document = before ++ o :: after)
    (hcounts : signature? document scope o = some s) (hnot : s.admits o.2.entries = false)
    (hregistered : (dispatch { document, schemaName, scope } .register).report.outcome =
      .ok registered)
    (hrun : (run .collect registered before).report.outcome = .ok c) :
    ∃ fault, collected document schemaName scope = .error fault ∧ Blames o fault := by
  obtain ⟨hdocument, hscope, hreflects⟩ := reflects_of_registered hregistered
  have hsites : ∀ other ∈ before, other.1 ∈ document.sites := by
    intro other hother
    have hmem : other ∈ occurrences document := hoccurrences ▸ List.mem_append_left _ hother
    exact (mem_occurrences.1 hmem).1
  have hhere := hreflects.run hsites hrun
  have hsame : c.scope = scope := (scope_of_run hrun).trans hscope
  have htables : ∀ name, isTable document c.scope name = true → ∃ t, c.table? name = some t :=
    fun name htable => exists_table_of_reflects hhere (hsame ▸ htable)
  obtain ⟨fault, hstep, hblames⟩ := blamed_of_step htables (hsame ▸ hcounts) hnot
  refine ⟨fault, ?_, hblames⟩
  unfold collected
  rw [hregistered, Outcome.ok_bind, dispatch, outcome_run, hdocument, hoccurrences,
    List.foldl_append, ← outcome_run, hrun, List.foldl_cons, advance, Outcome.ok_bind, hstep,
    foldl_advance_error]

/-- What has been collected has admitted arguments. -/
theorem admits_of_collected {schemaName : String} (ho : o ∈ occurrences document)
    (hcounts : signature? document scope o = some s)
    (hcollected : collected document schemaName scope = .ok c) : s.admits o.2.entries = true := by
  obtain ⟨before, after, hoccurrences⟩ := List.append_of_mem ho
  have hphases := hcollected
  unfold collected at hphases
  obtain ⟨registered, hregistered, hrun⟩ := Outcome.of_bind_eq_ok hphases
  obtain ⟨hdocument, -, -⟩ := reflects_of_registered hregistered
  rw [dispatch, outcome_run, hdocument, hoccurrences, List.foldl_append, ← outcome_run] at hrun
  cases hbefore : (run .collect registered before).report.outcome with
  | error fault =>
    rw [hbefore, foldl_advance_error] at hrun
    cases hrun
  | ok here =>
    by_contra hrefused
    obtain ⟨fault, hfault, -⟩ := blamed_of_collected hoccurrences hcounts (by simpa using hrefused)
      hregistered hbefore
    rw [hcollected] at hfault
    cases hfault

end Catalog

open Catalog

theorem outcome_compileDocument_of_fault {document : Document} {schemaName : String} {scope : Scope}
    {fault : Fault} (h : collected document schemaName scope = .error fault) :
    (compileDocument schemaName scope document).outcome = .error fault := by
  unfold compileDocument
  rw [Report.outcome_bind, outcome_gather, h]
  rfl

/-- **Arguments that count are those of the signature: in a document that is compiled all of them
are admitted (`Signature.admits`), and the first occurrence whose arguments are not is blamed for
them.** -/
theorem arguments_of_compileDocument (schemaName : String) (scope : Scope) (document : Document) :
    (∀ compilation, (compileDocument schemaName scope document).outcome = .ok compilation →
      ∀ o ∈ occurrences document, ∀ s, signature? document scope o = some s →
        s.admits o.2.entries = true) ∧
      ∀ before o after s registered c, occurrences document = before ++ o :: after →
        signature? document scope o = some s → s.admits o.2.entries = false →
        (dispatch { document, schemaName, scope } .register).report.outcome = .ok registered →
        (run .collect registered before).report.outcome = .ok c →
        ∃ fault, (compileDocument schemaName scope document).outcome = .error fault ∧
          Blames o fault := by
  refine ⟨fun compilation hcompile o ho s hcounts => ?_,
    fun before o after s registered c hoccurrences hcounts hnot hregistered hrun => ?_⟩
  · obtain ⟨collected, hcollected, -⟩ := exists_collected_of_gather (of_compileDocument hcompile).1
    exact admits_of_collected ho hcounts hcollected
  · obtain ⟨fault, hfault, hblames⟩ :=
      blamed_of_collected hoccurrences hcounts hnot hregistered hrun
    exact ⟨fault, outcome_compileDocument_of_fault hfault, hblames⟩

/-- Posts of owners, with the owner named by an entry of the strategy. -/
def ownedPosts (entry : String) : String :=
  "type Post @model @key(fields: [\"id\"])
      @auth(provider: COGNITO_USER_POOLS,
        strategy: \x7btype: OWNER, " ++ entry ++ ": \"writer\"\x7d) \x7b
    id: ID! \x7d"

theorem ownedPosts_arguments : ∃ document other,
    Sdl.Document.parse (ownedPosts "ownerField") = .ok document ∧
    Sdl.Document.parse (ownedPosts "ownerFeld") = .ok other ∧
    (∃ o ∈ occurrences document, o.2.name = "auth" ∧
      Access.Rule.signature.admits o.2.entries = true) ∧
    ∃ o ∈ occurrences other, o.2.name = "auth" ∧ ∃ fault,
      (compileDocument "schema.graphql" none other).outcome = .error fault ∧ Blames o fault := by
  have hgood : Outcome.Holds (Sdl.Document.parse (ownedPosts "ownerField")) fun document =>
      Outcome.Holds (compileDocument "schema.graphql" none document).outcome fun _ =>
        ∃ o ∈ occurrences document, o.2.name = "auth" ∧ roleOf? none .collect o = some .auth := by
    decide +kernel
  have hbad : Outcome.Holds (Sdl.Document.parse (ownedPosts "ownerFeld")) fun document =>
      let start : Catalog := { document, schemaName := "schema.graphql", scope := none }
      Outcome.Holds (dispatch start .register).report.outcome fun registered =>
        Outcome.Holds
          (run .collect registered ((occurrences document).take 2)).report.outcome fun _ =>
          (((occurrences document).drop 2).head?.any fun o =>
            o.2.name = "auth" && roleOf? none .collect o = some .auth
              && !Access.Rule.signature.admits o.2.entries) = true := by
    decide +kernel
  obtain ⟨document, hparse, compilation, hcompile, o, ho, hname, hrole⟩ := hgood
  obtain ⟨other, hother, registered, hregistered, c, hrun, hlast⟩ := hbad
  have hcounts : ∀ {document : Document} {o : Occurrence}, roleOf? none .collect o = some .auth →
      signature? document none o = some Access.Rule.signature := by
    intro document o hrole
    unfold signature?
    rw [hrole]
  obtain ⟨o', hhead, hauth⟩ := (Option.any_eq_true _ _).1 hlast
  simp only [Bool.and_eq_true, decide_eq_true_eq, Bool.not_eq_true'] at hauth
  obtain ⟨⟨hname', hrole'⟩, hnot⟩ := hauth
  obtain ⟨after, hafter⟩ := List.head?_eq_some_iff.1 hhead
  have hsplit : occurrences other = (occurrences other).take 2 ++ o' :: after := by
    rw [← hafter, List.take_append_drop]
  have ho' : o' ∈ occurrences other := by
    rw [hsplit]
    exact List.mem_append_right _ List.mem_cons_self
  refine ⟨document, other, hparse, hother, ⟨o, ho, hname, ?_⟩, o', ho', hname', ?_⟩
  · exact (arguments_of_compileDocument "schema.graphql" none document).1 compilation hcompile o ho
      _ (hcounts hrole)
  · exact (arguments_of_compileDocument "schema.graphql" none other).2 _ o' after _ registered c
      hsplit (hcounts hrole') hnot hregistered hrun

/-- Keys with arguments that are not among the documented ones: a query is named by a second name,
and the key of a type that is no table has its fields misspelt. -/
def looseKeys : String :=
  "type Post @model @key(fields: [\"id\"], name: \"ById\", query_field: \"postById\") \x7b id: ID! \x7d
  type Note @key(field: \"id\") \x7b id: ID! \x7d"

/-- The occurrence `o` has an argument of another name than `names`. -/
def hasOther (names : List String) (o : Occurrence) : Bool :=
  o.2.entries.any fun f => !(names.map Scalar.text).contains f.1

theorem looseKeys_compiled : ∃ document, Sdl.Document.parse looseKeys = .ok document ∧
    (∃ compilation, (compileDocument "schema.graphql" none document).outcome = .ok compilation) ∧
    ((occurrences document).filter fun o => o.2.name = "key" && o.1.inScope none
      && hasOther ["fields", "name", "queryField"] o).map (·.1.typeName) = ["Post", "Note"] := by
  have hfacts : Outcome.Holds (Sdl.Document.parse looseKeys) fun document =>
      Outcome.Holds (compileDocument "schema.graphql" none document).outcome fun _ =>
        ((occurrences document).filter fun o => o.2.name = "key" && o.1.inScope none
          && hasOther ["fields", "name", "queryField"] o).map (·.1.typeName) =
            ["Post", "Note"] := by
    decide +kernel
  obtain ⟨document, hparse, compilation, hcompile, hkeys⟩ := hfacts
  exact ⟨document, hparse, ⟨compilation, hcompile⟩, hkeys⟩

end SchemaLoom
