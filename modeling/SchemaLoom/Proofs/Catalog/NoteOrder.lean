/-
The order in which findings are noted.

Tables agree (`Table.Agrees`) if they differ in nothing but the order of what is implied, and in
implied indexes; every part of a note respects that.  Notes about relations of different tables
may then be made in either order (`commute_note`).

A note has three parts, the kind, what the relation asks for and the foreign key, so that makes
nine pairs of parts.  The kind and the foreign key are noted in the table of the relation, and
for the other note that is another table (`commute_of_ne`); a demand does not look at kinds or at
foreign keys that were noted (`noteDemand_noteKind`, `noteDemand_noteKey`).  What remains are two
demands in one table, and those are for different ends, since their owners differ
(`answer_comm`).

The order does matter within one table: of two relations of one name the first decides the
foreign key of the end.  So nothing is said about findings of one owner.
-/
import SchemaLoom.Proofs.Catalog.Findings
import SchemaLoom.Proofs.Sdl.Site

namespace SchemaLoom

/-! ### What tables agree on

In whatever order findings are noted, the table comes to have the same keys implied, though not in
the same order.  Of the implied indexes nothing is kept here.
-/

namespace Table

/-- A table without what other tables imply about it. -/
def withoutImplied (t : Table) : Table := { t with impliedIndexes := [], impliedForeignKeys := [] }

/-- The tables differ in nothing but the order of what is implied, and in implied indexes. -/
structure Agrees (t t' : Table) : Prop where
  declared : t.withoutImplied = t'.withoutImplied
  implied : ∀ key, key ∈ t.impliedForeignKeys ↔ key ∈ t'.impliedForeignKeys

variable {t t' : Table}

theorem Agrees.refl (t : Table) : t.Agrees t := ⟨rfl, fun _ => Iff.rfl⟩

theorem Agrees.symm (h : t.Agrees t') : t'.Agrees t :=
  ⟨h.declared.symm, fun key => (h.implied key).symm⟩

theorem Agrees.trans {t'' : Table} (h : t.Agrees t') (h' : t'.Agrees t'') : t.Agrees t'' :=
  ⟨h.declared.trans h'.declared, fun key => (h.implied key).trans (h'.implied key)⟩

/-- What a table has of its own is the same in tables that agree. -/
theorem Agrees.congr (h : t.Agrees t') {α : Type} (own : Table → α)
    (hown : ∀ t, own t.withoutImplied = own t) : own t = own t' := by
  rw [← hown t, ← hown t', h.declared]

theorem Agrees.name (h : t.Agrees t') : t.name = t'.name := h.congr Table.name fun _ => rfl

theorem Agrees.relations (h : t.Agrees t') : t.relations = t'.relations :=
  h.congr Table.relations fun _ => rfl

/-- What is not noted about implied keys can be noted in tables that agree. -/
theorem Agrees.change (h : t.Agrees t') {g : Table → Table}
    (hdeclared : ∀ t, (g t).withoutImplied = g t.withoutImplied)
    (himplied : ∀ t, (g t).impliedForeignKeys = t.impliedForeignKeys) :
    (g t).Agrees (g t') := by
  refine ⟨?_, fun key => ?_⟩
  · rw [hdeclared, hdeclared, h.declared]
  · rw [himplied, himplied, h.implied]

/-! ### Answers

An answer does two things: the end of the relation takes over a foreign key, and what has no end
is implied.  Demands that stand apart are met by different relations, so neither changes what the
other finds.
-/

/-- What an answer changes, apart from what it implies. -/
theorem withoutImplied_answer (t : Table) (d : Demand) :
    (t.answer d).withoutImplied = t.withoutImplied.takeOver d := by
  unfold answer
  cases hend : t.otherEnd? d with
  | some e => rfl
  | none =>
    have hnone : ∀ r ∈ t.relations, d.isMetBy r = false := by simpa using List.find?_eq_none.1 hend
    have hsame : t.withoutImplied.takeOver d = t.withoutImplied := by
      rw [takeOver]
      exact congrArg (fun relations => { t.withoutImplied with relations })
        (adoptFirst_of_none hnone)
    rw [hsame]
    cases d.name with
    | none =>
      simp only [addImpliedForeignKey]
      split <;> rfl
    | some name =>
      simp only [addImpliedIndex, addImpliedForeignKey]
      split <;> split <;> rfl

/-- What an answer implies. -/
theorem mem_implied_answer (t : Table) (d : Demand) (key : String) :
    key ∈ (t.answer d).impliedForeignKeys ↔
      key ∈ t.impliedForeignKeys ∨ (t.otherEnd? d).isNone = true ∧ key = d.ownKey := by
  have hadd : ∀ t : Table, key ∈ (t.addImpliedForeignKey d.ownKey).impliedForeignKeys ↔
      key ∈ t.impliedForeignKeys ∨ key = d.ownKey := by
    intro t
    unfold addImpliedForeignKey
    split
    next hthere =>
      rw [List.contains_iff_mem] at hthere
      exact ⟨Or.inl, fun h => h.elim id fun hsame => hsame ▸ hthere⟩
    · simp
  have hindex : ∀ (t : Table) (i : Index),
      (t.addImpliedIndex i).impliedForeignKeys = t.impliedForeignKeys := by
    intro t i
    unfold addImpliedIndex
    split <;> rfl
  unfold answer
  cases t.otherEnd? d with
  | some e => simp [takeOver]
  | none =>
    cases d.name with
    | none => simp [hadd]
    | some name => simp [hindex, hadd]

theorem relations_answer (t : Table) (d : Demand) :
    (t.answer d).relations = adoptFirst d.isMetBy d.foreignKey t.relations := by
  have hsame := congrArg Table.relations (withoutImplied_answer t d)
  exact hsame

theorem Agrees.otherEnd? (h : t.Agrees t') (d : Demand) : t.otherEnd? d = t'.otherEnd? d := by
  rw [Table.otherEnd?, Table.otherEnd?, h.relations]

theorem Agrees.answer (h : t.Agrees t') (d : Demand) : (t.answer d).Agrees (t'.answer d) := by
  refine ⟨?_, fun key => ?_⟩
  · rw [withoutImplied_answer, withoutImplied_answer, h.declared]
  · rw [mem_implied_answer, mem_implied_answer, h.implied, h.otherEnd?]

/-- Demands that differ in the table or in the name are met by different relations. -/
theorem not_isMetBy_of_apart {d d' : Demand} (hapart : d.IsApart d') {r : Relation}
    (hmet : d.isMetBy r = true) : d'.isMetBy r = false := by
  obtain ⟨name, hname, hsame, htarget, -⟩ := Demand.isMetBy_iff.1 hmet
  refine Bool.eq_false_iff.2 fun hmet' => ?_
  obtain ⟨name', hname', hsame', htarget', -⟩ := Demand.isMetBy_iff.1 hmet'
  rcases hapart with howner | hnames
  · exact howner (htarget.symm.trans htarget')
  · exact hnames (hname.trans (hsame.symm.trans (hsame'.trans hname'.symm)))

theorem isMetBy_adopt (d : Demand) (foreignKey : Option String) (r : Relation) :
    d.isMetBy (r.adopt foreignKey) = d.isMetBy r := rfl

theorem find?_adoptFirst_of_apart {d d' : Demand} (hapart : d.IsApart d')
    (foreignKey : Option String) (rs : List Relation) :
    (adoptFirst d.isMetBy foreignKey rs).find? d'.isMetBy = rs.find? d'.isMetBy := by
  induction rs with
  | nil => rfl
  | cons r rs ih =>
    by_cases hmet : d.isMetBy r = true
    · simp [adoptFirst, hmet, isMetBy_adopt, not_isMetBy_of_apart hapart hmet]
    · simp [adoptFirst, hmet, List.find?_cons, ih]

theorem adoptFirst_comm {d d' : Demand} (hapart : d.IsApart d')
    (foreignKey foreignKey' : Option String) (rs : List Relation) :
    adoptFirst d.isMetBy foreignKey (adoptFirst d'.isMetBy foreignKey' rs)
      = adoptFirst d'.isMetBy foreignKey' (adoptFirst d.isMetBy foreignKey rs) := by
  induction rs with
  | nil => rfl
  | cons r rs ih =>
    by_cases hmet : d.isMetBy r = true
    · simp [adoptFirst, hmet, isMetBy_adopt, not_isMetBy_of_apart hapart hmet]
    · by_cases hmet' : d'.isMetBy r = true
      · simp [adoptFirst, hmet, hmet', isMetBy_adopt]
      · simp [adoptFirst, hmet, hmet', ih]

/-- The end of a relation stays the same when a table is asked for another relation. -/
theorem otherEnd?_answer {d d' : Demand} (hapart : d.IsApart d') (t : Table) :
    (t.answer d).otherEnd? d' = t.otherEnd? d' := by
  rw [otherEnd?, relations_answer, find?_adoptFirst_of_apart hapart]
  rfl

/-- **Demands for different relations may be answered in any order.** The tables that come of it
differ in no more than the order of what is implied, and in implied indexes (`Agrees`). -/
theorem answer_comm {d d' : Demand} (hapart : d.IsApart d') (t : Table) :
    ((t.answer d).answer d').Agrees ((t.answer d').answer d) := by
  refine ⟨?_, fun key => ?_⟩
  · simp only [withoutImplied_answer, takeOver, adoptFirst_comm hapart]
  · simp only [mem_implied_answer, otherEnd?_answer hapart, otherEnd?_answer hapart.symm]
    rw [or_assoc, or_assoc, or_comm (a := (t.otherEnd? d).isNone = true ∧ key = d.ownKey)]

/-! ### Notes -/

theorem adoptFirst_setKind (d : Demand) (position : Nat) (kind : RelationKind)
    (rs : List Relation) :
    adoptFirst d.isMetBy d.foreignKey (rs.modify position fun r => { r with kind := some kind })
      = (adoptFirst d.isMetBy d.foreignKey rs).modify position
          fun r => { r with kind := some kind } := by
  have hstays : ∀ r : Relation, d.isMetBy { r with kind := some kind } = d.isMetBy r := fun _ => rfl
  induction rs generalizing position with
  | nil => simp [adoptFirst]
  | cons r rs ih =>
    cases position with
    | zero =>
      by_cases hmet : d.isMetBy r = true
      · simp [adoptFirst, hstays, hmet, Relation.adopt]
      · simp [adoptFirst, hstays, hmet]
    | succ position =>
      by_cases hmet : d.isMetBy r = true
      · simp [adoptFirst, hmet]
      · simp [adoptFirst, hmet, ih]

theorem isNone_otherEnd?_setKind (d : Demand) (position : Nat) (kind : RelationKind) (t : Table) :
    ((t.setKind position kind).otherEnd? d).isNone = (t.otherEnd? d).isNone := by
  have hends := map_unkinded_otherEnd? (t.setKind position kind) d
  rw [map_unkinded_setKind, ← map_unkinded_otherEnd?] at hends
  have hnone := congrArg Option.isNone hends
  simpa using hnone

/-- What is not about implied keys may be changed before or after an answer. -/
theorem answer_change {d : Demand} {g : Table → Table}
    (hdeclared : ∀ t, (g t).withoutImplied = g t.withoutImplied)
    (himplied : ∀ t, (g t).impliedForeignKeys = t.impliedForeignKeys)
    (hend : ∀ t, ((g t).otherEnd? d).isNone = (t.otherEnd? d).isNone)
    (hadopt : ∀ t : Table, (g t).takeOver d = g (t.takeOver d))
    (t : Table) : ((g t).answer d).Agrees (g (t.answer d)) := by
  refine ⟨?_, fun key => ?_⟩
  · rw [hdeclared, withoutImplied_answer, withoutImplied_answer, ← hadopt, hdeclared]
  · rw [himplied, mem_implied_answer, mem_implied_answer, himplied, hend]

theorem answer_setKind (t : Table) (d : Demand) (position : Nat) (kind : RelationKind) :
    ((t.setKind position kind).answer d).Agrees ((t.answer d).setKind position kind) :=
  answer_change (g := (·.setKind position kind)) (fun _ => rfl) (fun _ => rfl)
    (isNone_otherEnd?_setKind d position kind)
    (fun t => by simp only [setKind, takeOver, adoptFirst_setKind]) t

theorem answer_setTarget (t : Table) (d : Demand) (field : String) (key : Key) :
    ((t.setTarget field key).answer d).Agrees ((t.answer d).setTarget field key) :=
  answer_change (g := (·.setTarget field key)) (fun _ => rfl) (fun _ => rfl)
    (fun _ => rfl) (fun _ => rfl) t

theorem answer_setForeignKey (t : Table) (d : Demand) (field foreignKey : String) :
    ((t.setForeignKey field foreignKey).answer d).Agrees
      ((t.answer d).setForeignKey field foreignKey) :=
  answer_change (g := (·.setForeignKey field foreignKey)) (fun _ => rfl) (fun _ => rfl)
    (fun _ => rfl) (fun _ => rfl) t

theorem Agrees.setKind (h : t.Agrees t') (position : Nat) (kind : RelationKind) :
    (t.setKind position kind).Agrees (t'.setKind position kind) :=
  h.change (g := (·.setKind position kind)) (fun _ => rfl) fun _ => rfl

theorem Agrees.setTarget (h : t.Agrees t') (field : String) (key : Key) :
    (t.setTarget field key).Agrees (t'.setTarget field key) :=
  h.change (g := (·.setTarget field key)) (fun _ => rfl) fun _ => rfl

theorem Agrees.setForeignKey (h : t.Agrees t') (field foreignKey : String) :
    (t.setForeignKey field foreignKey).Agrees (t'.setForeignKey field foreignKey) :=
  h.change (g := (·.setForeignKey field foreignKey)) (fun _ => rfl) fun _ => rfl

theorem Agrees.noteKind (h : t.Agrees t') (f : Finding) :
    (t.noteKind f).Agrees (t'.noteKind f) := by
  unfold Table.noteKind
  rw [h.name]
  split
  · cases f.key with
    | none => exact h.setKind f.position f.kind
    | some key => exact (h.setKind f.position f.kind).setTarget f.field key
  · exact h

theorem Agrees.noteDemand (h : t.Agrees t') (f : Finding) :
    (t.noteDemand f).Agrees (t'.noteDemand f) := by
  unfold Table.noteDemand
  rw [h.name]
  split
  · split
    · exact h.answer _
    · exact h
  · exact h

theorem Agrees.noteKey (h : t.Agrees t') (f : Finding) : (t.noteKey f).Agrees (t'.noteKey f) := by
  unfold Table.noteKey
  rw [h.name]
  split
  · split
    · exact h.setForeignKey f.field _
    · exact h
  · exact h

/-- Tables that agree still do when both note a finding. -/
theorem Agrees.note (h : t.Agrees t') (f : Finding) : (t.note f).Agrees (t'.note f) :=
  ((h.noteKind f).noteDemand f).noteKey f

theorem noteDemand_noteKind (t : Table) (f f' : Finding) :
    ((t.noteKind f).noteDemand f').Agrees ((t.noteDemand f').noteKind f) := by
  unfold noteDemand
  cases f'.demand with
  | none => exact Agrees.refl _
  | some asked =>
    simp only [name_noteKind]
    split
    · unfold noteKind
      rw [name_answer]
      split
      · cases f.key with
        | none => exact answer_setKind t asked.1 f.position f.kind
        | some key =>
          exact (answer_setTarget _ _ _ _).trans ((answer_setKind t _ _ _).setTarget _ _)
      · exact Agrees.refl _
    · exact Agrees.refl _

theorem noteDemand_noteKey (t : Table) (f f' : Finding) :
    ((t.noteKey f).noteDemand f').Agrees ((t.noteDemand f').noteKey f) := by
  unfold noteDemand
  cases f'.demand with
  | none => exact Agrees.refl _
  | some asked =>
    simp only [name_noteKey]
    split
    · unfold noteKey
      cases f.demand with
      | none => exact Agrees.refl _
      | some settled =>
        simp only [name_answer]
        split
        · exact answer_setForeignKey t asked.1 f.field settled.2
        · exact Agrees.refl _
    · exact Agrees.refl _

/-! ### Notes in any order

A note is made of three parts, and the nine pairs of parts commute one by one.  The only pair that
takes an argument is that of two demands, which are apart if they are made by different tables.
-/

/-- Making the change `h` first and then `g` gives a table that agrees with the one that the other
order gives. -/
def Commute (g h : Table → Table) : Prop := ∀ t, (g (h t)).Agrees (h (g t))

theorem Commute.symm {g h : Table → Table} (hcomm : Commute g h) : Commute h g :=
  fun t => (hcomm t).symm

/-- A change may be made before or after two others if it may be made before or after each. -/
theorem Commute.comp {g h k : Table → Table} (hfirst : Commute g k) (hthen : Commute g h)
    (hrespects : ∀ {t t'}, t.Agrees t' → (h t).Agrees (h t')) : Commute g fun t => h (k t) :=
  fun t => (hthen (k t)).trans (hrespects (hfirst t))

/-- What is noted in the tables of different relations is noted in different tables. -/
theorem commute_of_ne {owner owner' : String} (howner : owner ≠ owner') {g h : Table → Table}
    (hg : ∀ t, t.name ≠ owner → g t = t) (hh : ∀ t, t.name ≠ owner' → h t = t)
    (hgname : ∀ t, (g t).name = t.name) (hhname : ∀ t, (h t).name = t.name) : Commute g h := by
  intro t
  by_cases hhere : t.name = owner
  · have hother : t.name ≠ owner' := hhere ▸ howner
    rw [hh t hother, hh (g t) (by rwa [hgname])]
    exact Agrees.refl _
  · rw [hg t hhere, hg (h t) (by rwa [hhname])]
    exact Agrees.refl _

theorem noteKind_of_ne {t : Table} {f : Finding} (h : t.name ≠ f.owner) : t.noteKind f = t :=
  if_neg h

theorem noteKey_of_ne {t : Table} {f : Finding} (h : t.name ≠ f.owner) : t.noteKey f = t := by
  unfold noteKey
  cases f.demand with
  | none => rfl
  | some asked => exact if_neg h

variable {f f' : Finding}

theorem commute_noteDemand (howner : f.owner ≠ f'.owner) :
    Commute (·.noteDemand f) (·.noteDemand f') := by
  intro t
  unfold noteDemand
  cases hasked : f.demand with
  | none => exact Agrees.refl _
  | some asked =>
    cases hasked' : f'.demand with
    | none => exact Agrees.refl _
    | some asked' =>
      have hapart : asked'.1.IsApart asked.1 := by
        refine Or.inl ?_
        rw [f.owned _ hasked, f'.owned _ hasked']
        exact howner.symm
      dsimp only
      by_cases hhere : t.name = asked.1.target <;> by_cases hhere' : t.name = asked'.1.target
      · rw [if_pos hhere', if_pos (by rwa [name_answer]), if_pos hhere,
          if_pos (by rwa [name_answer])]
        exact answer_comm hapart t
      · rw [if_neg hhere', if_pos hhere, if_neg (by rwa [name_answer])]
        exact Agrees.refl _
      · rw [if_pos hhere', if_neg hhere, if_pos hhere', if_neg (by rwa [name_answer])]
        exact Agrees.refl _
      · rw [if_neg hhere', if_neg hhere, if_neg hhere']
        exact Agrees.refl _

/-- A change that may be made before or after every part of a note may be made before or after
it. -/
theorem Commute.note {g : Table → Table} (hkind : Commute g (·.noteKind f))
    (hdemand : Commute g (·.noteDemand f)) (hkey : Commute g (·.noteKey f)) :
    Commute g (·.note f) :=
  (hkind.comp hdemand fun h => h.noteDemand f).comp hkey fun h => h.noteKey f

/-- **Findings about relations of different tables may be noted in any order** (`Table.note`). -/
theorem commute_note (howner : f.owner ≠ f'.owner) : Commute (·.note f) (·.note f') := by
  have hkinds : Commute (·.noteKind f) (·.noteKind f') :=
    commute_of_ne howner (fun _ => noteKind_of_ne) (fun _ => noteKind_of_ne)
      (name_noteKind · f) (name_noteKind · f')
  have hsplit : ∀ {f f' : Finding}, f.owner ≠ f'.owner →
      Commute (·.noteKind f) (·.noteKey f') := fun {f f'} howner =>
    commute_of_ne howner (fun _ => noteKind_of_ne) (fun _ => noteKey_of_ne)
      (name_noteKind · f) (name_noteKey · f')
  have hkeys : Commute (·.noteKey f) (·.noteKey f') :=
    commute_of_ne howner (fun _ => noteKey_of_ne) (fun _ => noteKey_of_ne)
      (name_noteKey · f) (name_noteKey · f')
  have hdemandkind : ∀ f f' : Finding, Commute (·.noteDemand f') (·.noteKind f) :=
    fun f f' t => noteDemand_noteKind t f f'
  have hdemandkey : ∀ f f' : Finding, Commute (·.noteDemand f') (·.noteKey f) :=
    fun f f' t => noteDemand_noteKey t f f'
  have hkind : Commute (·.noteKind f') (·.note f) :=
    hkinds.symm.note (hdemandkind f' f).symm (hsplit howner.symm)
  have hdemand : Commute (·.noteDemand f') (·.note f) :=
    (hdemandkind f f').note (commute_noteDemand howner).symm (hdemandkey f f')
  have hkey : Commute (·.noteKey f') (·.note f) :=
    (hsplit howner).symm.note (hdemandkey f' f).symm hkeys.symm
  exact hkind.symm.note hdemand.symm hkey.symm

end Table

end SchemaLoom
