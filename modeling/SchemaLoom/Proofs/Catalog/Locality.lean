/-
Directives act on the table of their own type.

What a directive comes to depends on the table of its type and on nothing else that is
registered, and nothing else changes by it.  So the types of a document may be declared in any
order: the same tables are gathered from it, or else it is at fault either way (`gathersAlike`).

The ways in which a role acts are told without a catalog (`Manner`), so that one act can be
compared in two catalogs: they come to the same at a type if they have the same table of it
(`SameAt`).  Occurrences at different types may then change places, and `Reorders` turns that
into permutations of blocks, one block for each type.

The two orders may stop at different faults.  Nothing is claimed about which.
-/
import SchemaLoom.Proofs.Catalog.Gathering
import SchemaLoom.Proofs.Catalog.Naming
import SchemaLoom.Proofs.Catalog.Order

namespace SchemaLoom

open Sdl (Site Document Scope)

namespace Catalog

/-! ### How directives act

An occurrence registers a table, changes one, is at fault whatever is there, or does something
that has nothing to do with tables (`Manner`).  That is all that the exchange of two occurrences
needs.
-/

/-- The ways in which directives act at a site, whatever is in the catalog. -/
inductive Manner (role : Role) (site : Site) : (Catalog → Except Fault Catalog) → Prop where
  | register {body : Sdl.ObjectType} (hname : site.typeName = body.name) :
    Manner role site fun c => (c.registerType body).outcome
  | refuse (fault : Fault) : Manner role site fun _ => .error fault
  | change (edit : Table → Except Fault Table) :
    Manner role site fun c => (c.onTable role site edit).outcome
  /-- What is noted has nothing to do with tables. -/
  | aside {g : Catalog → Catalog} (htables : ∀ c, (g c).tables = c.tables)
    (hscope : ∀ c, (g c).scope = c.scope) : Manner role site fun c => .ok (g c)

theorem manner_of_act (role : Role) (site : Site) (args : Form.Fields) :
    Manner role site fun c => (c.act role site args).outcome := by
  unfold act
  split
  next body => exact .register rfl
  next => exact .change _
  next body field =>
    cases hshape : shapeOf field.type with
    | error fault => exact .refuse fault
    | ok shape => exact .aside (g := fun c => c.bind _) (fun _ => rfl) fun _ => rfl
  next d field _ =>
    cases hshape : shapeOf field.type with
    | error fault => exact .refuse fault
    | ok shape => exact .change _
  next d field =>
    cases hbinding : functionBinding (.field d (.output field)) field args with
    | error fault => exact .refuse fault
    | ok binding => exact .aside (g := fun c => c.bind _) (fun _ => rfl) fun _ => rfl
  next =>
    cases hrule : declareRule site args with
    | error fault => exact .refuse fault
    | ok rule =>
      cases site with
      | field d field =>
        exact .aside (g := fun c => c.addFieldRule _ _ _) (fun _ => rfl) fun _ => rfl
      | type d => exact .change _
  next => exact .change _
  next => exact .change _
  next => exact .aside (g := id) (fun _ => rfl) fun _ => rfl

/-! ### What directives act on

Catalogs are compared at the table of one name (`SameAt`), and an occurrence leaves the tables of
all other names as they are.
-/

/-- The outcomes are both faults, or catalogs of one scope with the same table of the name `name`.
-/
inductive SameAt (name : String) : Except Fault Catalog → Except Fault Catalog → Prop where
  | fault (fault fault' : Fault) : SameAt name (.error fault) (.error fault')
  | value {c c' : Catalog} (hscope : c.scope = c'.scope) (htable : c.table? name = c'.table? name) :
    SameAt name (.ok c) (.ok c')

namespace SameAt

variable {name : String} {x y z : Except Fault Catalog}

theorem refl (x : Except Fault Catalog) : SameAt name x x := by
  cases x with
  | error fault => exact .fault fault fault
  | ok c => exact .value rfl rfl

theorem symm (h : SameAt name x y) : SameAt name y x := by
  cases h with
  | fault fault fault' => exact .fault fault' fault
  | value hscope htable => exact .value hscope.symm htable.symm

theorem trans (h : SameAt name x y) (h' : SameAt name y z) : SameAt name x z := by
  cases h with
  | fault fault fault' =>
    cases h' with
    | fault _ fault'' => exact .fault fault fault''
  | value hscope htable =>
    cases h' with
    | value hscope' htable' => exact .value (hscope.trans hscope') (htable.trans htable')

theorem of_values {c c' : Catalog} (h : SameAt name (.ok c) (.ok c')) :
    c.scope = c'.scope ∧ c.table? name = c'.table? name := by
  cases h with
  | value hscope htable => exact ⟨hscope, htable⟩

end SameAt

variable {c c' : Catalog} {role : Role} {site : Site}

theorem table?_congr {name : String} (h : c.tables = c'.tables) :
    c.table? name = c'.table? name := by
  rw [table?, table?, h]

/-- A table that is registered is found under its name. -/
theorem table?_append (c : Catalog) (t : Table) (name : String) :
    { c with tables := c.tables ++ [t] }.table? name
      = (c.table? name).or (if t.name = name then some t else none) := by
  unfold table?
  rw [List.find?_append]
  refine congrArg _ ?_
  by_cases hname : t.name = name <;> simp [hname]

theorem outcome_registerType (c : Catalog) (body : Sdl.ObjectType) :
    (c.registerType body).outcome =
      if (c.table? body.name).isSome then .error (.repeatedTable body.name)
      else .ok { c with tables := c.tables ++ [{ definition := body }] } := by
  unfold registerType register
  rw [Report.outcome_bind, Report.outcome_lift]
  by_cases htaken : (c.table? body.name).isSome = true
  · rw [if_pos htaken, if_pos (by exact htaken)]
    rfl
  · rw [if_neg htaken, if_neg (by exact htaken)]
    rfl

/-- What a directive comes to depends on the table of its type. -/
theorem Manner.sameAt {act : Catalog → Except Fault Catalog} (h : Manner role site act)
    (hscope : c.scope = c'.scope) (htable : c.table? site.typeName = c'.table? site.typeName) :
    SameAt site.typeName (act c) (act c') := by
  cases h with
  | @register body hname =>
    dsimp only
    rw [outcome_registerType, outcome_registerType, ← hname, htable]
    split
    · exact .fault _ _
    · refine .value hscope ?_
      rw [table?_append, table?_append, htable]
  | refuse fault => exact .fault fault fault
  | change edit =>
    dsimp only
    unfold onTable
    rw [← htable]
    cases hfound : c.table? site.typeName with
    | none => exact .value hscope htable
    | some t =>
      simp only [Report.outcome_bind, Report.outcome_lift, Report.outcome_pure]
      cases edit t with
      | error fault => exact .fault fault fault
      | ok t' =>
        refine .value hscope ?_
        rw [table?_putTable, table?_putTable, htable]
  | aside htables hkeeps =>
    refine .value ((hkeeps c).trans (hscope.trans (hkeeps c').symm)) ?_
    rw [table?_congr (htables c), table?_congr (htables c'), htable]

/-- No other table changes. -/
theorem Acts.others {o : Occurrence} (h : Acts o c c') {name : String}
    (hother : name ≠ o.1.typeName) :
    c'.table? name = c.table? name := by
  cases h with
  | @register body hsite hnew =>
    have hname : body.name ≠ name := by
      rw [hsite] at hother
      exact hother.symm
    rw [table?_append, if_neg (by exact hname), Option.or_none]
  | @gain t t' htable hgains =>
    have hname : t'.name = o.1.typeName := by
      rw [← name_of_table? htable, Table.name, Table.name, hgains.definition]
    rw [table?_putTable, hname, if_neg hother]
  | _ => rfl

theorem Acts.scope {o : Occurrence} (h : Acts o c c') : c'.scope = c.scope := by
  cases h <;> rfl

theorem others_of_step {phase : Phase} {o : Occurrence} (h : (step phase c o).outcome = .ok c') :
    c'.scope = c.scope ∧ ∀ name, name ≠ o.1.typeName → c'.table? name = c.table? name := by
  rcases acts_of_step h with rfl | ⟨-, hacts, -⟩
  · exact ⟨rfl, fun _ _ => rfl⟩
  · exact ⟨hacts.scope, fun _ hother => hacts.others hother⟩

theorem sameAt_step (phase : Phase) {o : Occurrence} (hscope : c.scope = c'.scope)
    (htable : c.table? o.1.typeName = c'.table? o.1.typeName) :
    SameAt o.1.typeName (step phase c o).outcome (step phase c' o).outcome := by
  unfold step
  rw [← hscope]
  cases roleOf? c.scope phase o with
  | none => exact .value hscope htable
  | some role => exact (manner_of_act role o.1 o.2.entries).sameAt hscope htable

/-! ### Phases in any order

Catalogs that have the same table of every name are told apart by nothing that a directive looks
at, and two faults are as good as each other (`SameTables`).
-/

/-- What comes of an occurrence after what came before. -/
def advance (phase : Phase) (x : Except Fault Catalog) (o : Occurrence) : Except Fault Catalog :=
  x >>= fun c => (step phase c o).outcome

/-- The outcomes are both faults, or catalogs with the same table of every name. -/
def SameTables (x y : Except Fault Catalog) : Prop := ∀ name, SameAt name x y

theorem equivalence_sameTables : Equivalence SameTables where
  refl x _ := .refl x
  symm h name := (h name).symm
  trans h h' name := (h name).trans (h' name)

/-- Catalogs with the same tables are taken to such catalogs, or both to a fault. -/
theorem sameTables_step {phase : Phase} {o : Occurrence} (h : SameTables (.ok c) (.ok c')) :
    SameTables (step phase c o).outcome (step phase c' o).outcome := by
  obtain ⟨hscope, htable⟩ := (h o.1.typeName).of_values
  have hhere := sameAt_step phase hscope htable
  cases hnext : (step phase c o).outcome with
  | error fault =>
    rw [hnext] at hhere
    cases hnext' : (step phase c' o).outcome with
    | error fault' => exact fun name => .fault fault fault'
    | ok next' =>
      rw [hnext'] at hhere
      cases hhere
  | ok next =>
    rw [hnext] at hhere
    cases hnext' : (step phase c' o).outcome with
    | error fault' =>
      rw [hnext'] at hhere
      cases hhere
    | ok next' =>
      rw [hnext'] at hhere
      obtain ⟨hscopes, htables⟩ := hhere.of_values
      intro name
      refine .value hscopes ?_
      by_cases hsame : name = o.1.typeName
      · rw [hsame, htables]
      · obtain ⟨-, hbefore⟩ := (h name).of_values
        rw [(others_of_step hnext).2 name hsame, (others_of_step hnext').2 name hsame, hbefore]

/-- Two occurrences at different types may change places. -/
theorem sameTables_swap {phase : Phase} {o o' : Occurrence}
    (hapart : o.1.typeName ≠ o'.1.typeName) :
    SameTables (advance phase (step phase c o).outcome o')
      (advance phase (step phase c o').outcome o) := by
  -- An occurrence that is at fault is at fault behind the other one, too, as that changes another
  -- table.
  have hfault : ∀ {o o' : Occurrence} {fault : Fault}, o.1.typeName ≠ o'.1.typeName →
      (step phase c o).outcome = .error fault →
      ∃ fault', advance phase (step phase c o').outcome o = .error fault' := by
    intro o o' fault hapart hfails
    cases hnext : (step phase c o').outcome with
    | error fault' => exact ⟨fault', rfl⟩
    | ok next =>
      obtain ⟨hscope, hothers⟩ := others_of_step hnext
      have hhere := sameAt_step phase (o := o) hscope.symm (hothers _ hapart).symm
      rw [hfails] at hhere
      cases hafter : (step phase next o).outcome with
      | error fault' => exact ⟨fault', hafter⟩
      | ok after =>
        rw [hafter] at hhere
        cases hhere
  cases hfirst : (step phase c o).outcome with
  | error fault =>
    obtain ⟨fault', hfails⟩ := hfault hapart hfirst
    rw [hfails]
    exact fun name => .fault fault fault'
  | ok first =>
    cases hsecond : (step phase c o').outcome with
    | error fault =>
      obtain ⟨fault', hfails⟩ := hfault hapart.symm hsecond
      rw [hfirst] at hfails
      rw [hfails]
      exact fun name => .fault fault' fault
    | ok second =>
      obtain ⟨hscope, hothers⟩ := others_of_step hfirst
      obtain ⟨hscope', hothers'⟩ := others_of_step hsecond
      have hlast := sameAt_step phase (o := o') hscope.symm (hothers _ hapart.symm).symm
      have hlast' := sameAt_step phase (o := o) hscope'.symm (hothers' _ hapart).symm
      rw [hsecond] at hlast
      rw [hfirst] at hlast'
      simp only [advance, Outcome.ok_bind]
      cases hdone : (step phase first o').outcome with
      | error fault =>
        rw [hdone] at hlast
        cases hlast
      | ok done =>
        cases hdone' : (step phase second o).outcome with
        | error fault =>
          rw [hdone'] at hlast'
          cases hlast'
        | ok done' =>
          rw [hdone] at hlast
          rw [hdone'] at hlast'
          obtain ⟨hscopeend, htable⟩ := hlast.of_values
          obtain ⟨hscopeend', htable'⟩ := hlast'.of_values
          obtain ⟨-, hrest⟩ := others_of_step hdone
          obtain ⟨-, hrest'⟩ := others_of_step hdone'
          intro name
          refine .value (hscopeend.symm.trans (hscope'.trans (hscope.symm.trans hscopeend'))) ?_
          -- Each of the two tables is compared where the other occurrence has left it alone.
          by_cases hhere : name = o.1.typeName
          · rw [hrest name (hhere ▸ hapart), hhere, htable']
          · by_cases hthere : name = o'.1.typeName
            · rw [hrest' name (hthere ▸ hapart.symm), hthere, htable]
            · rw [hrest name hthere, hrest' name hhere, hothers name hhere, hothers' name hthere]

/-- **Occurrences at different types may come in any order**, up to the order of tables
(`SameTables`). -/
theorem reorders_advance (phase : Phase) :
    Reorders SameTables (advance phase) fun o o' => o.1.typeName ≠ o'.1.typeName where
  equivalence := equivalence_sameTables
  respects {x y} h o := by
    cases x with
    | error fault =>
      cases y with
      | error fault' => exact fun name => .fault fault fault'
      | ok c' => cases h ""
    | ok c =>
      cases y with
      | error fault' => cases h ""
      | ok c' => exact sameTables_step h
  swaps x o o' hapart := by
    cases x with
    | error fault => exact fun name => .fault fault fault
    | ok c => exact sameTables_swap hapart

/-! ### Documents in any order

A phase folds over occurrences, which come type by type.  So the fold goes over blocks of them,
and a permutation of the types is one of the blocks.
-/

theorem foldl_advance_error (phase : Phase) (fault : Fault) (os : List Occurrence) :
    os.foldl (advance phase) (.error fault) = .error fault := by
  induction os with
  | nil => rfl
  | cons o os ih => exact ih

theorem outcome_run (phase : Phase) (c : Catalog) (os : List Occurrence) :
    (run phase c os).report.outcome = os.foldl (advance phase) (.ok c) := by
  induction os generalizing c with
  | nil => rfl
  | cons o os ih =>
    rw [List.foldl_cons, advance, Outcome.ok_bind]
    cases hstep : (step phase c o).outcome with
    | error fault =>
      rw [foldl_advance_error]
      simp [run, hstep, Progress.report]
    | ok next =>
      rw [← ih next]
      simp [run, hstep, Progress.report]

/-- The occurrences of directives at one type. -/
def occurrencesOf (d : Sdl.Declaration) : List Occurrence :=
  d.sites.flatMap fun site => site.directives.map fun directive => (site, directive)

theorem occurrences_eq_flatten (document : Document) :
    occurrences document = (document.declarations.map occurrencesOf).flatten := by
  rw [← List.flatMap_def]
  exact List.flatMap_assoc

theorem typeName_of_mem_occurrencesOf {d : Sdl.Declaration} {o : Occurrence}
    (h : o ∈ occurrencesOf d) : o.1.typeName = d.name := by
  obtain ⟨site, hsite, hdirective⟩ := List.mem_flatMap.1 h
  obtain ⟨directive, -, rfl⟩ := List.mem_map.1 hdirective
  rcases List.mem_cons.1 hsite with rfl | hfield
  · rfl
  · obtain ⟨f, -, rfl⟩ := List.mem_map.1 hfield
    rfl

/-- **A phase comes to the same tables in whatever order types are declared.** -/
theorem sameTables_run (phase : Phase) {document document' : Document}
    (hnodup : (document.declarations.map (·.name)).Nodup)
    (hperm : document.declarations.Perm document'.declarations) {x y : Except Fault Catalog}
    (h : SameTables x y) :
    SameTables ((occurrences document).foldl (advance phase) x)
      ((occurrences document').foldl (advance phase) y) := by
  rw [occurrences_eq_flatten, occurrences_eq_flatten]
  refine equivalence_sameTables.trans ((reorders_advance phase).perm (hperm.map _) ?_ Ne.symm x)
    ((reorders_advance phase).respects_all h _)
  refine List.pairwise_map.2 ((List.pairwise_map.1 hnodup).imp ?_)
  intro d e hne o ho o' ho'
  rw [typeName_of_mem_occurrencesOf ho, typeName_of_mem_occurrencesOf ho']
  exact hne

/-- What is registered and collected, as the phases come to it one after the other. -/
theorem collected_eq_foldl (document : Document) (schemaName : String) (scope : Scope) :
    collected document schemaName scope
      = (occurrences document).foldl (advance .collect)
          ((occurrences document).foldl (advance .register)
            (.ok { document, schemaName, scope })) := by
  unfold collected dispatch
  rw [← outcome_run]
  cases hregistered :
    (run .register { document, schemaName, scope } (occurrences document)).report.outcome with
  | error fault => rw [foldl_advance_error, Outcome.error_bind]
  | ok registered =>
    have hrun := (rooted_empty document schemaName scope).run hregistered
    rw [Outcome.ok_bind, outcome_run, hrun.2.1]

/-- **The same tables are collected in whatever order types are declared.** -/
theorem sameTables_collected {document document' : Document}
    (hnodup : (document.declarations.map (·.name)).Nodup)
    (hperm : document.declarations.Perm document'.declarations) (schemaName : String)
    (scope : Scope) :
    SameTables (collected document schemaName scope) (collected document' schemaName scope) := by
  rw [collected_eq_foldl, collected_eq_foldl]
  refine sameTables_run .collect hnodup hperm (sameTables_run .register hnodup hperm ?_)
  exact fun name => .value rfl rfl

/-- Tables with names of their own that are found under the same names are the same. -/
theorem perm_tables (hnodup : c.tableNames.Nodup) (hnodup' : c'.tableNames.Nodup)
    (h : ∀ name, c.table? name = c'.table? name) : c.tables.Perm c'.tables := by
  have hdistinct : ∀ {c : Catalog}, c.tableNames.Nodup → c.tables.Nodup := fun {c} hnames =>
    (List.pairwise_map.1 hnames).imp fun hne hsame => hne (congrArg Table.name hsame)
  refine (List.perm_ext_iff_of_nodup (hdistinct hnodup) (hdistinct hnodup')).2 fun t => ?_
  have hmem : ∀ {c : Catalog}, c.tableNames.Nodup → (t ∈ c.tables ↔ c.table? t.name = some t) :=
    fun hnames => by rw [table?_eq_some_iff hnames, and_iff_left rfl]
  rw [hmem hnodup, hmem hnodup', h]

/-- What is gathered from documents that declare the same types, in whatever order. -/
inductive GathersAlike : Except Fault Catalog → Except Fault Catalog → Prop where
  | fault (fault fault' : Fault) : GathersAlike (.error fault) (.error fault')
  | value {c c' : Catalog} (hagrees : c.Agrees c') : GathersAlike (.ok c) (.ok c')

/-- **Tables and their relations come out the same in whatever order types are declared**
(`GathersAlike`). -/
theorem gathersAlike {document document' : Document}
    (hnodup : (document.declarations.map (·.name)).Nodup)
    (hperm : document.declarations.Perm document'.declarations) (schemaName : String)
    (scope : Scope) :
    GathersAlike (gather { document, schemaName, scope }).outcome
      (gather { document := document', schemaName, scope }).outcome := by
  have hsame := sameTables_collected hnodup hperm schemaName scope
  rw [outcome_gather, outcome_gather]
  cases hbefore : collected document schemaName scope with
  | error fault =>
    cases hbefore' : collected document' schemaName scope with
    | error fault' => exact .fault fault fault'
    | ok before' =>
      rw [hbefore, hbefore'] at hsame
      cases hsame ""
  | ok before =>
    cases hbefore' : collected document' schemaName scope with
    | error fault' =>
      rw [hbefore, hbefore'] at hsame
      cases hsame ""
    | ok before' =>
      rw [hbefore, hbefore'] at hsame
      have hnames := (rooted_of_collected hbefore).1.tableNames
      have hnames' := (rooted_of_collected hbefore').1.tableNames
      refine .value (agrees_classify hnames (perm_tables hnames hnames' fun name => ?_))
      exact (hsame name).of_values.2

end Catalog

end SchemaLoom
