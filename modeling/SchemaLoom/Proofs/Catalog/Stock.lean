/-
Tables that are filled by hand, in a catalog and outside of it.

A table may be added to before it is registered, or without ever being, and once it is registered
it is added to through the catalog.  Calls are told as they go on, step by step on a state
(`Work`); what is written before a fault stays written.  So that a refused call changes nothing
is not a matter of course: it rests on that whatever can fail is looked at before anything is
written, and that is what `Addition.outcome_work` proves of each kind of addition.

`Answers` says once what a request comes to.  Through requests of any kind and in any order names
stay apart (`IsDistinct`), and tables only grow (`Grows`): nothing that is registered is ever
replaced.  Both are read off `Answers`, a step at a time, and then carried over a history.
-/
import SchemaLoom.Proofs.Catalog.Growth

namespace SchemaLoom

/-! ### Work on a state

Work is a state monad below exceptions, in that order: the state survives a fault.  That is the
whole difference from functions that return a new table or a fault.
-/

/-- Something that is done to a state step by step.  A fault ends it, and what has been written by
then stays. -/
abbrev Work (σ α : Type) := ExceptT Fault (StateM σ) α

namespace Work

variable {σ α β : Type}

/-- What comes of work, and the state that it leaves. -/
def outcome (work : Work σ α) (s : σ) : Except Fault α × σ := (ExceptT.run work).run s

/-- Further steps begin at the state that the first ones leave, unless those end in a fault. -/
theorem outcome_bind (work : Work σ α) (next : α → Work σ β) (s : σ) :
    (work >>= next).outcome s =
      match work.outcome s with
      | (.ok a, s') => (next a).outcome s'
      | (.error fault, s') => (.error fault, s') := by
  have hsteps : (work >>= next).outcome s
      = (ExceptT.bindCont next (work.outcome s).1 : StateM σ (Except Fault β))
        (work.outcome s).2 := rfl
  rw [hsteps]
  obtain ⟨result, s'⟩ := work.outcome s
  cases result <;> rfl

end Work

namespace Table

/-! ### Additions, step by step -/

/-- The keys are looked through for the name of the new one, which is then put behind them. -/
def keyWork (key : Key) : Work Table Unit := do
  let t ← get
  forM t.keys fun k => if k.name = key.name then throw (.repeatedKey t.name key.name) else pure ()
  set { t with keys := t.keys ++ [key] }

/-- What is done to a table when something is added to it. -/
def work : Addition → Work Table Unit
  | .key key => keyWork key
  | .relation r => modify (·.addRelation r)
  | .rule rule => modify (·.addRule rule)
  | .unique field => modify (·.addUnique field)
  | .tenancy tenancy => modify fun t => { t with tenancy := some tenancy }
  | .impliedIndex i => modify (·.addImpliedIndex i)
  | .impliedForeignKey field => modify (·.addImpliedForeignKey field)

/-- Looking through keys writes nothing. -/
theorem outcome_forM (fault : Fault) (key : Key) (ks : List Key) (t : Table) :
    Work.outcome (forM ks fun k => if k.name = key.name then throw fault else pure ()) t
      = (if ks.any fun k => k.name = key.name then .error fault else .ok (), t) := by
  induction ks with
  | nil => rfl
  | cons k ks ih =>
    rw [List.forM_cons, Work.outcome_bind, List.any_cons]
    by_cases hsame : k.name = key.name
    · simp only [hsame, ↓reduceIte, decide_true, Bool.true_or]
      rfl
    · simp only [hsame, ↓reduceIte, decide_false, Bool.false_or]
      exact ih

/-- **What is added step by step is added as a whole, or else the table stays what it was**: `work`
comes to `Table.take`. -/
theorem outcome_work (addition : Addition) (t : Table) :
    (work addition).outcome t =
      match t.take addition with
      | .ok t' => (.ok (), t')
      | .error fault => (.error fault, t) := by
  cases addition with
  | key key =>
    have hget : Work.outcome (get : Work Table Table) t = (.ok t, t) := rfl
    rw [work, keyWork, Work.outcome_bind, hget]
    dsimp only
    rw [Work.outcome_bind, outcome_forM, take, addKey]
    by_cases htaken : (t.keys.any fun k => k.name = key.name) = true
    · simp only [if_pos htaken]
    · simp only [if_neg htaken]
      rfl
  | _ => rfl

end Table

/-! ### Calls

A loose table is known by its position, a registered one by its name.  Registering moves a table
from the one kind to the other, unless its name is taken.
-/

/-- A catalog, and tables that are not registered in it, or not yet. -/
structure Stock where
  catalog : Catalog
  loose : List Table := []

/-- Which table is meant: the one that is registered under a name, or one of the loose ones. -/
inductive Spot where
  | registered (name : String)
  | loose (position : Nat)
  deriving DecidableEq, Repr

/-- What may be asked of a stock. -/
inductive Request where
  /-- A table is made for a type. -/
  | make (definition : Sdl.ObjectType) (provider : String)
  | register (spot : Spot)
  | add (spot : Spot) (addition : Addition)
  /-- Relations are classified. -/
  | classify
  deriving Repr

namespace Stock

/-- The table at a spot. -/
def table? (s : Stock) : Spot → Option Table
  | .registered name => s.catalog.table? name
  | .loose position => s.loose[position]?

/-- A stock with a table written to a spot. -/
def put (s : Stock) (t : Table) : Spot → Stock
  | .registered _ => { s with catalog := s.catalog.putTable t }
  | .loose position => { s with loose := s.loose.set position t }

/-- The loose tables without the one at a spot. -/
def without (s : Stock) : Spot → List Table
  | .registered _ => s.loose
  | .loose position => s.loose.eraseIdx position

/-- `t` is a table of the stock, registered or loose. -/
def Holds (s : Stock) (t : Table) : Prop := t ∈ s.catalog.tables ∨ t ∈ s.loose

/-- What is done when something is asked for.  Whatever the work on a table has come to is written
back. -/
def work : Request → Work Stock Unit
  | .make definition provider =>
    modify fun s => { s with loose := s.loose ++ [{ definition, provider }] }
  | .register spot => do
    let s ← get
    match s.table? spot with
    | none => pure ()
    | some t =>
      let catalog ← MonadExcept.ofExcept (s.catalog.register t)
      set { catalog, loose := s.without spot : Stock }
  | .add spot addition => do
    let s ← get
    match s.table? spot with
    | none => pure ()
    | some t =>
      let (result, t') := (Table.work addition).outcome t
      set (s.put t' spot)
      MonadExcept.ofExcept result
  | .classify => modify fun s => { s with catalog := s.catalog.classify.1 }

/-- A stock after requests, each of which may be refused. -/
def after (s : Stock) (requests : List Request) : Stock :=
  requests.foldl (fun s request => ((work request).outcome s).2) s

/-- Tables have names of their own, and nothing is named twice in any table, registered or loose. -/
structure IsDistinct (s : Stock) : Prop where
  catalog : s.catalog.IsDistinct
  loose : ∀ t ∈ s.loose, t.IsDistinct

/-- What comes of a request, and the stock that it leaves. -/
inductive Answers (s : Stock) : Request → Except Fault Unit × Stock → Prop where
  | make {definition : Sdl.ObjectType} {provider : String} :
    Answers s (.make definition provider)
      (.ok (), { s with loose := s.loose ++ [{ definition, provider }] })
  /-- Nothing is done to a table that there is not. -/
  | unregistered {spot : Spot} (hnone : s.table? spot = none) :
      Answers s (.register spot) (.ok (), s)
  | register {spot : Spot} {t : Table} (htable : s.table? spot = some t)
    (hnew : s.catalog.table? t.name = none) :
    Answers s (.register spot)
      (.ok (), {
        catalog := { s.catalog with tables := s.catalog.tables ++ [t] }
        loose := s.without spot })
  | taken {spot : Spot} {t : Table} (htable : s.table? spot = some t)
    (htaken : (s.catalog.table? t.name).isSome = true) :
    Answers s (.register spot) (.error (.repeatedTable t.name), s)
  | missing {spot : Spot} {addition : Addition} (hnone : s.table? spot = none) :
    Answers s (.add spot addition) (.ok (), s)
  | add {spot : Spot} {addition : Addition} {t t' : Table} (htable : s.table? spot = some t)
    (htake : t.take addition = .ok t') : Answers s (.add spot addition) (.ok (), s.put t' spot)
  | refuse {spot : Spot} {addition : Addition} {t : Table} {fault : Fault}
    (htable : s.table? spot = some t) (htake : t.take addition = .error fault) :
    Answers s (.add spot addition) (.error fault, s)
  | classify : Answers s .classify (.ok (), { s with catalog := s.catalog.classify.1 })

theorem holds_of_table? {s : Stock} {spot : Spot} {t : Table} (h : s.table? spot = some t) :
    s.Holds t := by
  cases spot with
  | registered name => exact Or.inl (Catalog.mem_of_table? h).1
  | loose position => exact Or.inr (List.mem_of_getElem? h)

/-- Writing back a table that is as it was changes nothing. -/
theorem IsDistinct.put_self {s : Stock} (h : s.IsDistinct) {spot : Spot} {t : Table}
    (htable : s.table? spot = some t) : s.put t spot = s := by
  cases spot with
  | registered name => rw [put, h.catalog.put_self (Catalog.mem_of_table? htable).1]
  | loose position =>
    obtain ⟨hposition, rfl⟩ := List.getElem?_eq_some_iff.1 htable
    rw [put, List.set_getElem_self]

theorem outcome_register (spot : Spot) (s : Stock) :
    (work (.register spot)).outcome s =
      match s.table? spot with
      | none => (.ok (), s)
      | some t =>
        match s.catalog.register t with
        | .ok catalog => (.ok (), { catalog, loose := s.without spot })
        | .error fault => (.error fault, s) := by
  have hget : Work.outcome (get : Work Stock Stock) s = (.ok s, s) := rfl
  rw [work, Work.outcome_bind, hget]
  dsimp only
  cases s.table? spot with
  | none => rfl
  | some t =>
    dsimp only
    cases s.catalog.register t <;> rfl

theorem outcome_add (spot : Spot) (addition : Addition) (s : Stock) :
    (work (.add spot addition)).outcome s =
      match s.table? spot with
      | none => (.ok (), s)
      | some t =>
        (((Table.work addition).outcome t).1, s.put ((Table.work addition).outcome t).2 spot) := by
  have hget : Work.outcome (get : Work Stock Stock) s = (.ok s, s) := rfl
  rw [work, Work.outcome_bind, hget]
  dsimp only
  cases s.table? spot with
  | none => rfl
  | some t =>
    dsimp only
    obtain ⟨result, t'⟩ := (Table.work addition).outcome t
    cases result <;> rfl

/-- **Every request is carried out as a whole, or refused for a name that is taken and without a
trace** (`Stock.Answers`). -/
theorem IsDistinct.answers {s : Stock} (h : s.IsDistinct) (request : Request) :
    s.Answers request ((work request).outcome s) := by
  cases request with
  | make definition provider => exact .make
  | classify => exact .classify
  | register spot =>
    rw [outcome_register]
    cases htable : s.table? spot with
    | none => exact .unregistered htable
    | some t =>
      by_cases htaken : (s.catalog.table? t.name).isSome = true
      · simp only [Catalog.register, if_pos htaken]
        exact .taken htable htaken
      · simp only [Catalog.register, if_neg htaken]
        exact .register htable (by simpa using htaken)
  | add spot addition =>
    rw [outcome_add]
    cases htable : s.table? spot with
    | none => exact .missing htable
    | some t =>
      simp only [Table.outcome_work]
      cases htake : t.take addition with
      | ok t' => exact .add htable htake
      | error fault =>
        dsimp only
        rw [h.put_self htable]
        exact .refuse htable htake

/-! ### What requests keep

A request that is refused may have made changes before.  So the claim is about the tables as they
are left in either case.
-/

theorem IsDistinct.of_table? {s : Stock} (h : s.IsDistinct) {spot : Spot} {t : Table}
    (htable : s.table? spot = some t) : t.IsDistinct :=
  (holds_of_table? htable).elim (h.catalog.tables t) (h.loose t)

theorem IsDistinct.put {s : Stock} (h : s.IsDistinct) {t : Table} (ht : t.IsDistinct)
    (spot : Spot) :
    (s.put t spot).IsDistinct := by
  cases spot with
  | registered name => exact ⟨h.catalog.put ht, h.loose⟩
  | loose position =>
    refine ⟨h.catalog, fun u hu => ?_⟩
    rcases List.mem_or_eq_of_mem_set hu with hold | rfl
    · exact h.loose u hold
    · exact ht

theorem mem_without {s : Stock} {spot : Spot} {t : Table} (h : t ∈ s.without spot) :
    t ∈ s.loose := by
  cases spot with
  | registered name => exact h
  | loose position => exact List.mem_of_mem_eraseIdx h

/-- **No request gives two tables one name, or names anything twice in a table.** -/
theorem IsDistinct.of_answers {s s' : Stock} (h : s.IsDistinct) {request : Request}
    {result : Except Fault Unit} (hanswers : s.Answers request (result, s')) : s'.IsDistinct := by
  cases hanswers with
  | make =>
    refine ⟨h.catalog, fun t ht => ?_⟩
    rcases List.mem_append.1 ht with hold | hmade
    · exact h.loose t hold
    · exact List.mem_singleton.1 hmade ▸ Table.isDistinct_new _ _
  | register htable hnew =>
    exact ⟨h.catalog.add (h.of_table? htable) hnew, fun t ht => h.loose t (mem_without ht)⟩
  | add htable htake => exact h.put ((h.of_table? htable).take htake) _
  | classify => exact ⟨h.catalog.growsApart_classify.distinct, h.loose⟩
  | unregistered | taken | missing | refuse => exact h

/-- **A request lets the tables of the catalog grow, and replaces none of them (`Catalog.Grows`).**
-/
theorem IsDistinct.grows_of_answers {s s' : Stock} (h : s.IsDistinct) {request : Request}
    {result : Except Fault Unit} (hanswers : s.Answers request (result, s')) :
    s.catalog.Grows s'.catalog := by
  cases hanswers with
  | register => exact Catalog.grows_add _ _
  | @add spot addition t t' htable htake =>
    cases spot with
    | registered name =>
      exact h.catalog.grows_put (Catalog.mem_of_table? htable).1 (Table.grows_take htake)
    | loose position => exact Catalog.Grows.refl _
  | classify => exact h.catalog.growsApart_classify.grows
  | make | unregistered | taken | missing | refuse => exact Catalog.Grows.refl _

/-- What is refused leaves no trace. -/
theorem Answers.eq_of_error {s s' : Stock} {request : Request} {fault : Fault}
    (h : s.Answers request (.error fault, s')) : s' = s := by
  cases h <;> rfl

theorem IsDistinct.after {s : Stock} (h : s.IsDistinct) (requests : List Request) :
    (s.after requests).IsDistinct := by
  induction requests generalizing s with
  | nil => exact h
  | cons request requests ih => exact ih (h.of_answers (h.answers request))

theorem IsDistinct.grows_after {s : Stock} (h : s.IsDistinct) (requests : List Request) :
    s.catalog.Grows (s.after requests).catalog := by
  induction requests generalizing s with
  | nil => exact Catalog.Grows.refl _
  | cons request requests ih =>
    exact (h.grows_of_answers (h.answers request)).trans (ih (h.of_answers (h.answers request)))

theorem isDistinct_empty (document : Sdl.Document) (schemaName : String) (scope : Sdl.Scope) :
    IsDistinct { catalog := { document, schemaName, scope } } :=
  ⟨⟨List.nodup_nil, nofun⟩, nofun⟩

/-! ### Any history -/

/-- **Whatever is asked of a stock that is empty at first, every name is registered for the table of
that name, nothing is named twice in a table, and the primary key is one key.**  What is refused
leaves every table and the catalog as they were, and what is asked for later lets registered tables
grow but replaces none. -/
theorem stock_after (document : Sdl.Document) (schemaName : String) (scope : Sdl.Scope)
    (requests : List Request) :
    let s := after { catalog := { document, schemaName, scope } } requests
    (∀ name t, s.catalog.table? name = some t ↔ t ∈ s.catalog.tables ∧ t.name = name) ∧
    (∀ t, s.Holds t → t.IsDistinct ∧ t.HasPrimaryKey) ∧
    (∀ request, s.Answers request ((work request).outcome s)) ∧
    (∀ request fault s', (work request).outcome s = (.error fault, s') → s' = s) ∧
    ∀ later, s.catalog.Grows (s.after later).catalog := by
  intro s
  have hdistinct : s.IsDistinct := (isDistinct_empty document schemaName scope).after requests
  refine ⟨fun name t => Catalog.table?_eq_some_iff hdistinct.catalog.tableNames, fun t ht => ?_,
    hdistinct.answers, ?_, hdistinct.grows_after⟩
  · have htable : t.IsDistinct := ht.elim (hdistinct.catalog.tables t) (hdistinct.loose t)
    exact ⟨htable, htable.hasPrimaryKey⟩
  · intro request fault s' hrefused
    have hanswers := hdistinct.answers request
    rw [hrefused] at hanswers
    exact hanswers.eq_of_error

/-- A second key without a name is refused, and so is a second table of one name. -/
example (s : Stock) :
    let note : Sdl.ObjectType := ⟨none, "Note", [], [], []⟩
    let filled := after { s with catalog := { s.catalog with tables := [] }, loose := [] }
      [.make note "DYNAMODB", .add (.loose 0) (.key { partition := "id" }), .make note "DYNAMODB",
        .register (.loose 0)]
    (work (.add (.registered "Note") (.key { partition := "body" }))).outcome filled
        = (.error (.repeatedKey "Note" none), filled) ∧
      (work (.register (.loose 0))).outcome filled = (.error (.repeatedTable "Note"), filled) :=
  ⟨rfl, rfl⟩

end Stock

end SchemaLoom
