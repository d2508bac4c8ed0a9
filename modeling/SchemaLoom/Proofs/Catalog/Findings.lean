/-
What classification finds out, table by table.

Classifying a relation takes in what the related tables declare, and notes something in the table
of the relation and in the one that it leads to.  `Finding` is all that is noted, and
`Table.note` is what a single table makes of it.  So what becomes of a catalog is what becomes of
each of its tables (`table?_classifyAt`), and the program's own steps, which look tables up and
put them back, are left behind.

A relation to many items asks something of the table that it leads to (`Demand`): the other end
of the relation is to take over a foreign key, and without another end the relation is implied
there.  `Table.answer` does that without positions, where the program finds the other end by its
position first (`acceptRelation_eq`).

The order within a note is that of the program: the kind before the demand, and the foreign key
when the other table has answered.  A table may be its own related table.
-/
import SchemaLoom.Proofs.Catalog.Classification

namespace SchemaLoom

/-! ### Demands

A `Demand` is what a relation to many items asks of the related table.  `otherEnd?` is the end
that it finds there, `takeOver` the table with that end changed, and `answer` the table either
way.
-/

/-- What a relation to many items asks of the table that it leads to. -/
structure Demand where
  /-- The table of the relation. -/
  owner : String
  target : String
  /-- The name of the relation, if it has one. -/
  name : Option String
  /-- The foreign key that the relation says. -/
  foreignKey : Option String

namespace Demand

/-- The foreign key of a relation without another end. -/
def ownKey (d : Demand) : String :=
  (present d.foreignKey).getD (Text.lowerFirst d.target ++ d.owner ++ "Id")

/-- The demands come from different tables, or are for relations of different names. -/
def IsApart (d d' : Demand) : Prop := d.owner ≠ d'.owner ∨ d.name ≠ d'.name

theorem IsApart.symm {d d' : Demand} (h : d.IsApart d') : d'.IsApart d := h.imp Ne.symm Ne.symm

/-- Is `e`, a relation of the related table, the other end that `d` asks for? -/
def isMetBy (d : Demand) (e : Relation) : Bool :=
  d.name.any fun name => Table.isEnd name d.owner false e

theorem isMetBy_iff {d : Demand} {e : Relation} :
    d.isMetBy e = true ↔
      ∃ name, d.name = some name ∧ e.name = some name ∧ e.target = d.owner ∧ e.toMany = false := by
  cases hname : d.name <;> simp [isMetBy, Table.isEnd, hname, and_assoc]

end Demand

/-- A relation that takes over a foreign key unless it says one. -/
def Relation.adopt (foreignKey : Option String) (r : Relation) : Relation :=
  { r with foreignKey := r.foreignKey.or foreignKey }

/-- Relations of which the first of some sort takes over a foreign key. -/
def adoptFirst (isChosen : Relation → Bool) (foreignKey : Option String) :
    List Relation → List Relation
  | [] => []
  | r :: rs =>
    if isChosen r then r.adopt foreignKey :: rs else r :: adoptFirst isChosen foreignKey rs

/-- A relation of which the kind is left open. -/
def Relation.unkinded (r : Relation) : Relation := { r with kind := none }

namespace Table

/-- What a relation to many items of a table asks of the related one. -/
def demand (t : Table) (r : Relation) : Demand := ⟨t.name, r.target, present r.name, r.foreignKey⟩

/-- The other end that a table has of a relation to many of its items. -/
def otherEnd? (t : Table) (d : Demand) : Option Relation := t.relations.find? d.isMetBy

/-- A table whose end of a relation took over the foreign key that the relation says. -/
def takeOver (t : Table) (d : Demand) : Table :=
  { t with relations := adoptFirst d.isMetBy d.foreignKey t.relations }

/-- A table that was asked for the items of a relation: its end of the relation takes over the
foreign key, and without an end it is implied. -/
def answer (t : Table) (d : Demand) : Table :=
  match t.otherEnd? d with
  | some _ => t.takeOver d
  | none =>
    let t := t.addImpliedForeignKey d.ownKey
    match d.name with
    | some name => t.addImpliedIndex { name, partition := d.ownKey }
    | none => t

/-- The foreign key by which a table finds the items that it was asked for. -/
def answerKey (t : Table) (d : Demand) : String :=
  (t.otherEnd? d).elim d.ownKey fun e => t.foreignKey (e.adopt d.foreignKey)

theorem modify_findIdx? (isChosen : Relation → Bool) (foreignKey : Option String)
    (rs : List Relation) {position : Nat} (h : rs.findIdx? isChosen = some position) :
    rs.modify position (Relation.adopt foreignKey) = adoptFirst isChosen foreignKey rs := by
  induction rs generalizing position with
  | nil => cases h
  | cons r rs ih =>
    rw [List.findIdx?_cons] at h
    by_cases hchosen : isChosen r = true
    · simp only [hchosen, ↓reduceIte, Option.some.injEq] at h
      subst h
      simp [adoptFirst, hchosen]
    · simp only [hchosen, Bool.false_eq_true, ↓reduceIte] at h
      obtain ⟨later, hlater, rfl⟩ := Option.map_eq_some_iff.1 h
      simp [adoptFirst, hchosen, ih hlater]

/-- What taking over a foreign key leaves alone in the relation that does is the same of all
relations. -/
theorem map_adoptFirst {α : Type} {p : Relation → α} {isChosen : Relation → Bool}
    {foreignKey : Option String} (h : ∀ r, isChosen r = true → p (r.adopt foreignKey) = p r)
    (rs : List Relation) : (adoptFirst isChosen foreignKey rs).map p = rs.map p := by
  induction rs with
  | nil => rfl
  | cons r rs ih =>
    by_cases hchosen : isChosen r = true
    · simp [adoptFirst, hchosen, h r hchosen]
    · simp [adoptFirst, hchosen, ih]

theorem adoptFirst_of_none {isChosen : Relation → Bool} {foreignKey : Option String}
    {rs : List Relation} (h : ∀ r ∈ rs, isChosen r = false) :
    adoptFirst isChosen foreignKey rs = rs := by
  induction rs with
  | nil => rfl
  | cons r rs ih =>
    rw [List.forall_mem_cons] at h
    simp [adoptFirst, h.1, ih h.2]

/-- What the ends of a relation decide does not depend on what else is known of it. -/
theorem isEnd_adopt (relation owner : String) (toMany : Bool) (foreignKey : Option String)
    (r : Relation) : isEnd relation owner toMany (r.adopt foreignKey)
      = isEnd relation owner toMany r := rfl

theorem find?_adoptFirst {isChosen : Relation → Bool} {foreignKey : Option String}
    (hstays : ∀ r, isChosen (r.adopt foreignKey) = isChosen r) (rs : List Relation) :
    (adoptFirst isChosen foreignKey rs).find? isChosen
      = (rs.find? isChosen).map (Relation.adopt foreignKey) := by
  induction rs with
  | nil => rfl
  | cons r rs ih =>
    by_cases hchosen : isChosen r = true
    · simp [adoptFirst, hchosen, hstays]
    · simp [adoptFirst, hchosen, ih]

/-- Taking over the foreign key of another end, without positions. -/
theorem adoptForeignKey_eq (t : Table) (relation owner : String) (foreignKey : Option String) :
    t.adoptForeignKey relation owner foreignKey
      = { t with relations := adoptFirst (isEnd relation owner false) foreignKey t.relations } := by
  unfold adoptForeignKey
  cases hfound : t.relations.findIdx? (isEnd relation owner false) with
  | none => rw [adoptFirst_of_none (List.findIdx?_eq_none_iff.1 hfound)]
  | some position =>
    rw [← modify_findIdx? _ foreignKey t.relations hfound]
    have hadopt : (fun r : Relation => if r.foreignKey.isNone then { r with foreignKey } else r)
        = Relation.adopt foreignKey := by
      funext r
      unfold Relation.adopt
      obtain ⟨_, _, _, _, key, _⟩ := r
      cases key <;> rfl
    rw [← hadopt]

/-- **What a relation makes of the related table is that table's answer** to the relation's
`demand`. -/
theorem acceptRelation_eq (target owner : Table) (r : Relation) :
    target.acceptRelation owner r
      = (target.answer (owner.demand r), target.answerKey (owner.demand r)) := by
  unfold acceptRelation answer answerKey otherEnd?
  cases hname : present r.name with
  | none =>
    have hnone : target.relations.find? (owner.demand r).isMetBy = none := by
      simp [Demand.isMetBy, demand, hname]
    rw [hnone]
    simp only [demand, hname, Option.bind_none, Option.elim_none]
    rfl
  | some name =>
    have hmet : (owner.demand r).isMetBy = isEnd name owner.name false := by
      funext e
      simp [Demand.isMetBy, demand, hname]
    rw [hmet]
    simp only [Option.bind_some, adoptForeignKey_eq, reciprocal?,
      find?_adoptFirst (isEnd_adopt name owner.name false r.foreignKey)]
    cases target.relations.find? (isEnd name owner.name false) with
    | none =>
      simp only [demand, hname, Option.map_none, Option.elim_none]
      rfl
    | some e =>
      simp only [takeOver, hmet]
      rfl

/-! ### What answers depend on

A note may change the kind of the other end, which the foreign key of a relation to one item does
not depend on.  So ends are compared without their kinds (`Relation.unkinded`).
-/

theorem foreignKey_of_toOne (t : Table) {r : Relation} (hone : r.toMany = false) :
    t.foreignKey r = (present r.foreignKey).getD (Text.lowerFirst t.name ++ r.target ++ "Id") := by
  simp [foreignKey, hone]

theorem otherEnd?_eq_some {t : Table} {d : Demand} {e : Relation} (h : t.otherEnd? d = some e) :
    e ∈ t.relations ∧ ∃ name, d.name = some name ∧ e.name = some name ∧ e.target = d.owner ∧
      e.toMany = false :=
  ⟨List.mem_of_find?_eq_some h, Demand.isMetBy_iff.1 (List.find?_some h)⟩

theorem map_unkinded_otherEnd? (t : Table) (d : Demand) :
    (t.otherEnd? d).map Relation.unkinded =
      (t.relations.map Relation.unkinded).find? d.isMetBy := by
  rw [List.find?_map]
  rfl

/-- The foreign key of a relation to one item does not depend on its kind. -/
theorem foreignKey_of_unkinded {t t' : Table} (hname : t'.name = t.name) {e e' : Relation}
    (hsame : e'.unkinded = e.unkinded) (hone : e.toMany = false) :
    t'.foreignKey e' = t.foreignKey e := by
  simp only [Relation.unkinded, Relation.mk.injEq] at hsame
  have hone' : e'.toMany = false := by
    rw [← hone, Relation.toMany, Relation.toMany, hsame.2.2.1]
  rw [foreignKey_of_toOne _ hone, foreignKey_of_toOne _ hone', hname, hsame.2.1,
    hsame.2.2.2.2.1]

/-- The foreign key in an answer depends on nothing but the name of a table and its relations. -/
theorem answerKey_congr {t t' : Table} (hname : t'.name = t.name)
    (hrelations : t'.relations.map Relation.unkinded = t.relations.map Relation.unkinded)
    (d : Demand) : t'.answerKey d = t.answerKey d := by
  have hends := map_unkinded_otherEnd? t' d
  rw [hrelations, ← map_unkinded_otherEnd?] at hends
  unfold answerKey
  cases hend : t.otherEnd? d with
  | none =>
    rw [hend, Option.map_none, Option.map_eq_none_iff] at hends
    rw [hends]
    rfl
  | some e =>
    rw [hend, Option.map_some, Option.map_eq_some_iff] at hends
    obtain ⟨e', hend', hsame⟩ := hends
    obtain ⟨-, -, -, -, -, hone⟩ := otherEnd?_eq_some hend
    have hadopted : (e'.adopt d.foreignKey).unkinded = (e.adopt d.foreignKey).unkinded :=
      congrArg (Relation.adopt d.foreignKey) hsame
    rw [hend', Option.elim_some, Option.elim_some]
    exact foreignKey_of_unkinded hname hadopted hone

theorem map_unkinded_setKind (t : Table) (position : Nat) (kind : RelationKind) :
    (t.setKind position kind).relations.map Relation.unkinded
      = t.relations.map Relation.unkinded :=
  map_modify_of_eq (g := fun r => { r with kind := some kind }) (fun _ => rfl) position
    t.relations

/-! ### Answers and notes

No change touches the name of a table, nor what its relations say of themselves, so that the other
end of a relation is the same in front of a change and behind it.
-/

@[simp] theorem name_setKind (t : Table) (position : Nat) (kind : RelationKind) :
    (t.setKind position kind).name = t.name := rfl

@[simp] theorem name_setTarget (t : Table) (field : String) (key : Key) :
    (t.setTarget field key).name = t.name := rfl

@[simp] theorem name_setForeignKey (t : Table) (field foreignKey : String) :
    (t.setForeignKey field foreignKey).name = t.name := rfl

theorem kin_answer (t : Table) (d : Demand) : t.Kin (t.answer d) := by
  have himplied := kin_addImpliedForeignKey t d.ownKey
  unfold answer
  split
  · exact ⟨rfl, rfl, map_adoptFirst (fun _ _ => rfl) t.relations, rfl, rfl, rfl⟩
  · cases d.name with
    | none => exact himplied
    | some name => exact himplied.trans (kin_addImpliedIndex _ _)

@[simp] theorem name_answer (t : Table) (d : Demand) : (t.answer d).name = t.name :=
  (kin_answer t d).name

end Table

/-! ### Findings

A finding holds what is noted as data: kind, target, demand and answer are read from the catalog
before anything is written.  `findingOf` reads them, and then every table notes the same finding.
-/

/-- All that classifying a relation finds out. -/
@[ext] structure Finding where
  /-- The table of the relation. -/
  owner : String
  position : Nat
  field : String
  kind : RelationKind
  /-- The primary key of the table that the relation leads to, if it leads to one. -/
  key : Option Key
  /-- What a relation to many items asks of that table, and the foreign key there. -/
  demand : Option (Demand × String)
  /-- It is the table of the relation that asks. -/
  owned : ∀ asked ∈ demand, asked.1.owner = owner

namespace Table

/-- What is noted in a table before another one is asked. -/
def noteKind (t : Table) (f : Finding) : Table :=
  if t.name = f.owner then
    let t := t.setKind f.position f.kind
    f.key.elim t (t.setTarget f.field)
  else t

/-- What is noted in a table that is asked. -/
def noteDemand (t : Table) (f : Finding) : Table :=
  match f.demand with
  | some (d, _) => if t.name = d.target then t.answer d else t
  | none => t

/-- What is noted in a table when another one has answered. -/
def noteKey (t : Table) (f : Finding) : Table :=
  match f.demand with
  | some (_, foreignKey) => if t.name = f.owner then t.setForeignKey f.field foreignKey else t
  | none => t

/-- What a table notes of a finding. -/
def note (t : Table) (f : Finding) : Table := ((t.noteKind f).noteDemand f).noteKey f

theorem kin_noteKind (t : Table) (f : Finding) : t.Kin (t.noteKind f) := by
  unfold noteKind
  split
  · have hkind := kin_setKind t f.position f.kind
    cases f.key with
    | none => exact hkind
    | some key => exact hkind.trans (kin_setTarget _ f.field key)
  · exact Kin.refl t

theorem kin_noteDemand (t : Table) (f : Finding) : t.Kin (t.noteDemand f) := by
  unfold noteDemand
  split
  · split
    · exact kin_answer t _
    · exact Kin.refl t
  · exact Kin.refl t

theorem kin_noteKey (t : Table) (f : Finding) : t.Kin (t.noteKey f) := by
  unfold noteKey
  split
  · split
    · exact kin_setForeignKey t f.field _
    · exact Kin.refl t
  · exact Kin.refl t

/-- **What is found out changes nothing that was declared** (`Table.Kin`). -/
theorem kin_note (t : Table) (f : Finding) : t.Kin (t.note f) :=
  ((kin_noteKind t f).trans (kin_noteDemand _ f)).trans (kin_noteKey _ f)

@[simp] theorem name_noteKind (t : Table) (f : Finding) : (t.noteKind f).name = t.name :=
  (kin_noteKind t f).name

@[simp] theorem name_noteDemand (t : Table) (f : Finding) : (t.noteDemand f).name = t.name :=
  (kin_noteDemand t f).name

@[simp] theorem name_noteKey (t : Table) (f : Finding) : (t.noteKey f).name = t.name :=
  (kin_noteKey t f).name

theorem map_unkinded_noteKind (t : Table) (f : Finding) :
    (t.noteKind f).relations.map Relation.unkinded = t.relations.map Relation.unkinded := by
  unfold noteKind
  split
  · cases f.key <;> exact map_unkinded_setKind t f.position f.kind
  · rfl

theorem answerKey_noteKind (t : Table) (f : Finding) (d : Demand) :
    (t.noteKind f).answerKey d = t.answerKey d :=
  answerKey_congr (name_noteKind t f) (map_unkinded_noteKind t f) d

end Table

namespace Catalog

/-- What classifying a relation of a table finds out. -/
def findingOf (c : Catalog) (t : Table) (position : Nat) (r : Relation) : Finding where
  owner := t.name
  position
  field := r.field
  kind := c.kindOf t r
  key := (c.table? r.target).map (·.primaryKey)
  demand :=
    if r.toMany then
      some (t.demand r,
        (c.table? r.target).elim (t.demand r).ownKey fun u => u.answerKey (t.demand r))
    else none
  owned := by
    intro asked hasked
    split at hasked
    · cases hasked
      rfl
    · cases hasked

/-- What classifying the relation at a position finds out. -/
def finding? (c : Catalog) (position : String × Nat) : Option Finding := do
  let t ← c.table? position.1
  let r ← t.relations[position.2]?
  return c.findingOf t position.2 r

theorem of_finding?_eq_some {c : Catalog} {position : String × Nat} {f : Finding}
    (h : c.finding? position = some f) : ∃ t r, c.table? position.1 = some t ∧
      t.relations[position.2]? = some r ∧ f = c.findingOf t position.2 r := by
  unfold finding? at h
  cases htable : c.table? position.1 with
  | none => simp [htable] at h
  | some t =>
    cases hrelation : t.relations[position.2]? with
    | none => simp [htable, hrelation] at h
    | some r =>
      simp only [htable, hrelation, Option.bind_eq_bind, Option.bind_some, Option.pure_def,
        Option.some.injEq] at h
      exact ⟨t, r, rfl, hrelation, h.symm⟩

theorem name_of_table? {c : Catalog} {name : String} {t : Table} (h : c.table? name = some t) :
    t.name = name :=
  (mem_of_table? h).2

theorem table?_putTable (c : Catalog) (t : Table) (name : String) :
    (c.putTable t).table? name
      = if name = t.name then (c.table? name).map fun _ => t else c.table? name := by
  unfold table? putTable
  rw [List.find?_map]
  have hnames : (fun other : Table => decide (other.name = name)) ∘
      (fun other => if other.name = t.name then t else other)
      = fun other => decide (other.name = name) := by
    funext other
    by_cases hsame : other.name = t.name
    · simp [hsame]
    · simp [hsame]
  rw [hnames]
  cases hfound : c.tables.find? fun other => other.name = name with
  | none => simp
  | some found =>
    have hname : found.name = name := by simpa using List.find?_some hfound
    by_cases hhere : name = t.name <;> simp [hhere, hname]

/-- A catalog in which one table was changed without its name. -/
theorem table?_change {c : Catalog} {t : Table} (htable : c.table? t.name = some t)
    {g : Table → Table} (hname : (g t).name = t.name) (name : String) :
    (c.putTable (g t)).table? name
      = (c.table? name).map fun x => if x.name = t.name then g x else x := by
  rw [table?_putTable, hname]
  cases hfound : c.table? name with
  | none => simp
  | some x =>
    have hhere := name_of_table? hfound
    by_cases hsame : name = t.name
    · subst hsame
      rw [htable] at hfound
      cases hfound
      simp
    · simp [hsame, hhere]

theorem table?_link {c : Catalog} {t : Table} (htable : c.table? t.name = some t) (r : Relation)
    (name : String) :
    (c.link t r).table? name = (c.table? name).map fun x =>
      if x.name = t.name then ((c.table? r.target).map (·.primaryKey)).elim x (x.setTarget r.field)
      else x := by
  unfold link
  cases c.table? r.target with
  | none => simp
  | some target =>
    exact table?_change htable (g := (·.setTarget r.field target.primaryKey)) rfl name

theorem table?_noteForeignKey {c : Catalog} {t : Table} (htable : c.table? t.name = some t)
    (field foreignKey : String) (name : String) :
    (c.noteForeignKey t.name field foreignKey).table? name = (c.table? name).map fun x =>
      if x.name = t.name then x.setForeignKey field foreignKey else x := by
  unfold noteForeignKey
  rw [htable, Option.elim_some]
  exact table?_change htable (g := (·.setForeignKey field foreignKey)) rfl name

theorem table?_settleMany {c : Catalog} {t : Table} (htable : c.table? t.name = some t)
    (r : Relation) (name : String) :
    (c.settleMany t r).table? name = (c.table? name).map fun x =>
      let x := if x.name = r.target then x.answer (t.demand r) else x
      if x.name = t.name then
        x.setForeignKey r.field
          ((c.table? r.target).elim (t.demand r).ownKey fun u => u.answerKey (t.demand r))
      else x := by
  -- The table of the relation is looked up once more, since it may be the one that was asked.
  have hnote : ∀ (next : Catalog) (foreignKey : String), (next.table? t.name).isSome →
      (next.noteForeignKey t.name r.field foreignKey).table? name = (next.table? name).map fun x =>
        if x.name = t.name then x.setForeignKey r.field foreignKey else x := by
    intro next foreignKey hsome
    obtain ⟨t', hfound⟩ := Option.isSome_iff_exists.1 hsome
    have hname := name_of_table? hfound
    rw [← hname] at hfound ⊢
    exact table?_noteForeignKey hfound r.field foreignKey name
  rw [settleMany_eq]
  cases htarget : c.table? r.target with
  | none =>
    refine (hnote c (t.demand r).ownKey (by rw [htable]; rfl)).trans ?_
    refine Option.map_congr fun x hx => ?_
    have hother : x.name ≠ r.target := by
      intro hsame
      rw [← hsame, name_of_table? hx, hx] at htarget
      cases htarget
    rw [if_neg hother]
    rfl
  | some u =>
    have hname := name_of_table? htarget
    have hask := fun name => table?_change (c := c) (t := u) (by rwa [hname])
      (g := (·.answer (t.demand r))) (Table.name_answer u _) name
    simp only [Table.acceptRelation_eq, Option.elim_some]
    refine (hnote _ (u.answerKey (t.demand r)) (by rw [hask, htable]; rfl)).trans ?_
    rw [hask, Option.map_map, hname]
    rfl

/-- The catalog in which the kind of a relation is known, and the table that it leads to. -/
def placed (c : Catalog) (t : Table) (position : Nat) (r : Relation) : Catalog :=
  let c := c.putTable (t.setKind position (c.kindOf t r))
  (c.table? t.name).elim c fun t => c.link t r

theorem table?_placed {c : Catalog} {t : Table} (htable : c.table? t.name = some t)
    (position : Nat) (r : Relation) (name : String) :
    (c.placed t position r).table? name
      = (c.table? name).map (·.noteKind (c.findingOf t position r)) := by
  have hkind := fun name => table?_change htable (g := (·.setKind position (c.kindOf t r))) rfl
    name
  have hhere : (c.putTable (t.setKind position (c.kindOf t r))).table? t.name
      = some (t.setKind position (c.kindOf t r)) := by
    rw [hkind, htable]
    simp
  have hkey : ((c.putTable (t.setKind position (c.kindOf t r))).table? r.target).map (·.primaryKey)
      = (c.table? r.target).map (·.primaryKey) := by
    rw [hkind, Option.map_map]
    refine Option.map_congr fun x _ => ?_
    simp only [Function.comp_apply]
    split <;> rfl
  unfold placed
  simp only [hhere, Option.elim_some]
  rw [table?_link (by exact hhere), hkey, hkind, Option.map_map]
  refine Option.map_congr fun x _ => ?_
  simp only [Function.comp_apply, Table.noteKind, findingOf, Table.name_setKind]
  by_cases hsame : x.name = t.name
  · simp [hsame]
  · simp [hsame]

theorem classifyAt_eq {c : Catalog} {position : String × Nat} {t : Table} {r : Relation}
    (htable : c.table? position.1 = some t) (hrelation : t.relations[position.2]? = some r) :
    (c.classifyAt position).1 =
      if r.toMany then
        ((c.placed t position.2 r).table? t.name).elim (c.placed t position.2 r)
          fun u => (c.placed t position.2 r).settleMany u r
      else c.placed t position.2 r := by
  simp only [classifyAt, htable, hrelation]
  rfl

/-- **A catalog with one relation classified is one whose tables have noted what was found out**
(`Table.note`). -/
theorem table?_classifyAt (c : Catalog) (position : String × Nat) (name : String) :
    (c.classifyAt position).1.table? name
      = (c.table? name).map fun x => (c.finding? position).elim x x.note := by
  unfold finding?
  cases htable : c.table? position.1 with
  | none => simp [classifyAt, htable]
  | some t =>
    cases hrelation : t.relations[position.2]? with
    | none => simp [classifyAt, htable, hrelation]
    | some r =>
      have hhere : c.table? t.name = some t := by rwa [name_of_table? htable]
      have hplaced := table?_placed hhere position.2 r
      simp only [classifyAt_eq htable hrelation, hrelation, Option.bind_eq_bind, Option.bind_some,
        Option.pure_def, Option.elim_some]
      by_cases hmany : r.toMany = true
      · have howner : (c.placed t position.2 r).table? t.name
            = some (t.noteKind (c.findingOf t position.2 r)) := by
          rw [hplaced, hhere]
          rfl
        -- The related table may be the table itself, which has got its kind by now.
        have hkeys : ((c.placed t position.2 r).table? r.target).elim (t.demand r).ownKey
            (·.answerKey (t.demand r))
            = (c.table? r.target).elim (t.demand r).ownKey (·.answerKey (t.demand r)) := by
          rw [hplaced]
          cases c.table? r.target with
          | none => rfl
          | some u => exact Table.answerKey_noteKind u _ _
        have hdemand : (t.noteKind (c.findingOf t position.2 r)).demand r = t.demand r := by
          simp [Table.demand]
        have hasks : (c.findingOf t position.2 r).demand = some (t.demand r,
            (c.table? r.target).elim (t.demand r).ownKey (·.answerKey (t.demand r))) := if_pos hmany
        rw [if_pos hmany, howner, Option.elim_some, table?_settleMany (by simpa using howner),
          hdemand, hkeys, hplaced, Option.map_map]
        refine Option.map_congr fun x _ => ?_
        simp only [Function.comp_apply, Table.note, Table.noteDemand, Table.noteKey, hasks,
          Table.name_noteKind]
        rfl
      · rw [if_neg hmany, hplaced]
        refine Option.map_congr fun x _ => ?_
        have hnone : (c.findingOf t position.2 r).demand = none := if_neg hmany
        simp [Table.note, Table.noteDemand, Table.noteKey, hnone]

end Catalog

end SchemaLoom
