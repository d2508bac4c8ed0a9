/-
Foreign keys that both ends of a relation share.

Items that belong to others hold their key, under a name that both ends of a relation may give.
What a relation to many gives is taken over by the other end, unless that end gives a name
itself or has taken one over before.  In its turn a relation to many notes the foreign key that
the other end has by then.

So what the other end has after some turns of the relations of one table is what it gave at first,
or else the first name that those relations gave (`Follows.ends`); and what a relation noted
is what the other end had after its own turn (`Follows.keys`).  Turns of relations of other
tables change neither.  The two ends differ in the end exactly if the first name was given too
late (`IsOvertaken`).
-/
import SchemaLoom.Proofs.Catalog.SaidKey

namespace SchemaLoom

namespace Catalog

variable {c before : Catalog} {owner name : String} {position : String × Nat} {t u : Table}
  {r e : Relation} {i : Nat}

/-! ### Turns

A turn of a relation of `owner` takes `Follows` one turn further, and a turn of any other relation
leaves it where it is.  The relations of `owner` have their turns in order, one after another,
though turns of other tables may come before and behind.
-/

/-- The relations of the table of a name. -/
def relationsIn (c : Catalog) (name : String) : List Relation :=
  (c.table? name).elim [] (·.relations)

/-- The foreign key that a relation to many notes in its turn. -/
def keyInTurn (c : Catalog) (t : Table) (i : Nat) (r : Relation) : String :=
  ((c.table? r.target).bind (·.otherEnd? (t.demand r))).elim (t.demand r).ownKey fun e =>
    (t.demand r).keyOf (e.foreignKey.or ((t.demand r).said (t.relations.take (i + 1))))

/-- The foreign key that classifying the relation at a position says to a relation of a table. -/
def saidTo (c : Catalog) (position : String × Nat) (t : Table) (i : Nat) : Option String :=
  (c.finding? position).bind (t.saidTo · i)

theorem foreignKey_noted (c : Catalog) (position : String × Nat) (t : Table) (i : Nat) :
    (c.noted position t).relations[i]?.map (·.foreignKey)
      = t.relations[i]?.map fun e => e.foreignKey.or (c.saidTo position t i) := by
  unfold noted saidTo
  cases c.finding? position with
  | none => simp
  | some f => exact Table.foreignKey_note t f i

/-- In its turn a relation says its foreign key to the first relation that it asks for. -/
theorem takenFrom_turn (hrelation : t.relations[i]? = some e) (turn : Nat) :
    t.takenFrom ((c.relationsIn e.target).take (turn + 1)) i e
      = (t.takenFrom ((c.relationsIn e.target).take turn) i e).or
          (c.saidTo (e.target, turn) t i) := by
  unfold relationsIn saidTo finding?
  cases howner : c.table? e.target with
  | none => simp
  | some s =>
    cases hnext : s.relations[turn]? with
    | none =>
      rw [List.getElem?_eq_none_iff] at hnext
      simp [List.take_of_length_le, hnext, Nat.le_succ_of_le hnext]
    | some r =>
      simpa [hnext] using
        Table.takenFrom_take_succ (c := c) hrelation (name_of_table? howner) hnext

/-- Relations of other tables say nothing to a relation. -/
theorem saidTo_of_ne (hrelation : t.relations[i]? = some e) (howner : position.1 ≠ e.target) :
    c.saidTo position t i = none := by
  unfold saidTo
  cases hfinding : c.finding? position with
  | none => rfl
  | some f => exact Table.saidTo_of_ne hrelation (owner_of_finding? hfinding ▸ howner)

/-- The foreign key of a field is kept when a relation of another table, to one item or on another
field is classified. -/
theorem lookup_noted_of_not (htable : c.table? name = some t) {field : String}
    (hnot : ∀ r, position.1 = name → t.relations[position.2]? = some r → r.toMany = true →
      r.field ≠ field) :
    (c.noted position t).foreignKeys.lookup field = t.foreignKeys.lookup field := by
  unfold noted
  cases hfinding : c.finding? position with
  | none => rfl
  | some f =>
    rw [Option.elim_some, Table.lookup_note]
    obtain ⟨s, r, howner, hrelation, rfl⟩ := of_finding?_eq_some hfinding
    by_cases hmany : r.toMany = true
    · rw [show (c.findingOf s position.2 r).demand = some (s.demand r, _) from if_pos hmany]
      refine if_neg ?_
      rintro ⟨hsame, hfield⟩
      have hhere : position.1 = name :=
        (name_of_table? howner).symm.trans (hsame.symm.trans (name_of_table? htable))
      rw [hhere, htable, Option.some.injEq] at howner
      subst howner
      exact hnot r hhere hrelation hmany hfield.symm
    · rw [show (c.findingOf s position.2 r).demand = none from if_neg hmany]

/-- What a relation to many notes in its turn. -/
theorem lookup_noted_here (htable : c.table? owner = some t) (hrelation : t.relations[i]? = some r)
    (hmany : r.toMany = true) :
    (c.noted (owner, i) t).foreignKeys.lookup r.field = some
      ((c.table? r.target).elim (t.demand r).ownKey fun u => u.answerKey (t.demand r)) := by
  have hfinding : c.finding? (owner, i) = some (c.findingOf t i r) := by
    simp [finding?, htable, hrelation]
  rw [noted, hfinding, Option.elim_some, Table.lookup_note,
    show (c.findingOf t i r).demand = some (t.demand r, _) from if_pos hmany]
  exact if_pos ⟨rfl, rfl⟩

/-- The catalog `c` is what `before` becomes while the first `turns` relations of `owner` have had
their turns. -/
structure Follows (before : Catalog) (owner : String) (turns : Nat) (c : Catalog) : Prop where
  outlasts : ∀ name, Option.Rel Table.Outlasts (before.table? name) (c.table? name)
  /-- A relation to one item has the foreign key that it gave, or the first that it was said. -/
  ends : ∀ name (u₀ u : Table) i (e₀ : Relation), before.table? name = some u₀ →
    c.table? name = some u → u₀.relations[i]? = some e₀ → e₀.toMany = false → e₀.target = owner →
    u.relations[i]?.map (·.foreignKey) = some (e₀.foreignKey.or
      (u₀.takenFrom ((before.relationsIn owner).take turns) i e₀))
  /-- A relation to many has the foreign key of its turn. -/
  keys : ∀ (t₀ t : Table) i (r₀ : Relation), before.table? owner = some t₀ →
    c.table? owner = some t →
    t₀.IsLast i r₀ → i < turns → t.foreignKeys.lookup r₀.field = some (before.keyInTurn t₀ i r₀)

namespace Follows

theorem start (c : Catalog) (owner : String) : c.Follows owner 0 c where
  outlasts name := by
    cases c.table? name with
    | none => exact .none
    | some t => exact .some (Table.Outlasts.refl t)
  ends name u₀ u i e₀ hbefore htable hrelation _ _ := by
    rw [hbefore, Option.some.injEq] at htable
    subst htable
    simp [hrelation, Table.takenFrom, Demand.said]
  keys t₀ t i r₀ _ _ _ hturn := absurd hturn (Nat.not_lt_zero i)

variable {turns : Nat}

theorem outlasts_of (h : before.Follows owner turns c) (hbefore : before.table? name = some u)
    (htable : c.table? name = some t) : u.Outlasts t := by
  obtain ⟨hnone, -⟩ | ⟨u', t', hbefore', htable', hsame⟩ := rel_cases (h.outlasts name)
  · rw [hbefore] at hnone
    cases hnone
  · rw [hbefore, Option.some.injEq] at hbefore'
    rw [htable, Option.some.injEq] at htable'
    rwa [hbefore', htable']

theorem outlasts_classifyAt (h : before.Follows owner turns c) (position : String × Nat)
    (name : String) :
    Option.Rel Table.Outlasts (before.table? name) ((c.classifyAt position).1.table? name) := by
  obtain ⟨hnone, hnone'⟩ | ⟨t₀, t, hbefore, htable, hsame⟩ := rel_cases (h.outlasts name)
  · rw [hnone, table?_classifyAt, hnone']
    exact .none
  · rw [hbefore, table?_noted htable position]
    exact .some ⟨hsame.kin.trans (kin_noted c position t),
      (offers_noted c position t).trans hsame.offers⟩

theorem offers (h : before.Follows owner turns c) :
    (c.relationsIn owner).map Relation.offer = (before.relationsIn owner).map Relation.offer := by
  unfold relationsIn
  obtain ⟨hnone, hnone'⟩ | ⟨t₀, t, hbefore, htable, hsame⟩ := rel_cases (h.outlasts owner)
  · rw [hnone, hnone']
  · rw [hbefore, htable]
    exact hsame.offers

/-- What relations to one item give after a turn is what they gave before it, or what is said to
them. -/
theorem ends_classifyAt (h : before.Follows owner turns c) {next : Nat}
    (hsaid : ∀ (u : Table) i e, u.relations[i]? = some e → e.target = owner →
      u.takenFrom ((c.relationsIn owner).take next) i e
        = (u.takenFrom ((c.relationsIn owner).take turns) i e).or (c.saidTo position u i))
    {u₀ u : Table} {e₀ : Relation} (hbefore : before.table? name = some u₀)
    (htable : (c.classifyAt position).1.table? name = some u)
    (hrelation : u₀.relations[i]? = some e₀)
    (hone : e₀.toMany = false) (htarget : e₀.target = owner) :
    u.relations[i]?.map (·.foreignKey) = some (e₀.foreignKey.or
      (u₀.takenFrom ((before.relationsIn owner).take next) i e₀)) := by
  obtain ⟨u, hnow, rfl⟩ := exists_of_table?_noted htable
  have hsame := h.outlasts_of hbefore hnow
  obtain ⟨e, hhere, hoffer⟩ := hsame.exists_relation hrelation
  have hends : e.ends = e₀.ends := congrArg Prod.fst hoffer
  have htaken : ∀ k, u.takenFrom ((c.relationsIn owner).take k) i e
      = u₀.takenFrom ((before.relationsIn owner).take k) i e₀ := by
    intro k
    apply hsame.takenFrom hends
    rw [List.map_take, List.map_take, h.offers]
  have hold := h.ends name u₀ u i e₀ hbefore hnow hrelation hone htarget
  rw [hhere, Option.map_some, Option.some.injEq, ← htaken] at hold
  rw [foreignKey_noted, hhere, Option.map_some, hold, ← htaken,
    hsaid u i e hhere ((congrArg (·.2.1) hends).trans htarget), Option.or_assoc]

/-- The other end of a relation has the foreign key that it gave, or the first that it was said. -/
theorem otherEnd? (h : before.Follows owner turns c) {t₀ u₀ u : Table} {r₀ : Relation}
    (howner : before.table? owner = some t₀) (hbefore : before.table? r₀.target = some u₀)
    (htable : c.table? r₀.target = some u) :
    (u.otherEnd? (t₀.demand r₀)).map (·.foreignKey)
      = (u₀.otherEnd? (t₀.demand r₀)).map fun e₀ =>
          e₀.foreignKey.or ((t₀.demand r₀).said (t₀.relations.take turns)) := by
  have hsame := h.outlasts_of hbefore htable
  cases hend : u₀.otherEnd? (t₀.demand r₀) with
  | none =>
    have hnone := Table.isNone_otherEnd?_congr hsame.kin.relations (t₀.demand r₀)
    rw [hend] at hnone
    rw [Option.isNone_iff_eq_none.1 hnone]
    rfl
  | some e₀ =>
    obtain ⟨-, -, -, -, htarget, hone⟩ := Table.otherEnd?_eq_some hend
    obtain ⟨i, hplace, hrelation⟩ := Table.otherEnd?_eq_some_iff.1 hend
    have halike : (u₀.awaited e₀).Alike (t₀.demand r₀) :=
      Table.alike_of_isMetBy (List.find?_some hend) (name_of_table? hbefore)
    have hkey := h.ends r₀.target u₀ u i e₀ hbefore htable hrelation hone
      (htarget.trans (name_of_table? howner))
    rw [Table.takenFrom, halike.isMetBy, if_pos hplace, halike.said, relationsIn, howner,
      Option.elim_some] at hkey
    obtain ⟨e, hhere, -⟩ := hsame.exists_relation hrelation
    have hend' : u.otherEnd? (t₀.demand r₀) = some e :=
      Table.otherEnd?_eq_some_iff.2
        ⟨i, by rw [Table.findIdx?_isMetBy_congr hsame.kin.relations, hplace], hhere⟩
    rw [hend', Option.map_some, Option.map_some, ← hkey, hhere, Option.map_some]

/-- What a relation to many would note next is the foreign key of its turn. -/
theorem answerKey_eq_keyInTurn (h : before.Follows owner turns c) {t₀ : Table} {r₀ : Relation}
    (howner : before.table? owner = some t₀) (hrelation : t₀.relations[turns]? = some r₀)
    (hmany : r₀.toMany = true) :
    ((c.table? r₀.target).elim (t₀.demand r₀).ownKey fun u => u.answerKey (t₀.demand r₀))
      = before.keyInTurn t₀ turns r₀ := by
  unfold keyInTurn
  obtain ⟨hnone, hnone'⟩ | ⟨u₀, u, hbefore, htable, -⟩ := rel_cases (h.outlasts r₀.target)
  · rw [hnone, hnone']
    rfl
  · have hends := h.otherEnd? howner hbefore htable
    rw [hbefore, htable, Option.elim_some, Option.bind_some, Table.answerKey]
    cases hend : u.otherEnd? (t₀.demand r₀) with
    | none =>
      rw [hend, Option.map_none, eq_comm, Option.map_eq_none_iff] at hends
      rw [hends]
      rfl
    | some e =>
      rw [hend, Option.map_some, eq_comm, Option.map_eq_some_iff] at hends
      obtain ⟨e₀, hend₀, hkey⟩ := hends
      obtain ⟨-, -, -, -, htarget, hone⟩ := Table.otherEnd?_eq_some hend
      have hsaid := Demand.said_take_succ (t₀.demand r₀) t₀.relations turns
      rw [hrelation, Option.bind_some, if_pos (Demand.isMadeBy_demand hmany)] at hsaid
      rw [hend₀, Option.elim_some, Option.elim_some, hsaid, ← Option.or_assoc, hkey,
        Table.foreignKey_of_toOne u (r := e.adopt _) hone]
      rw [Demand.keyOf, show (e.adopt (t₀.demand r₀).foreignKey).target = t₀.name from htarget,
        name_of_table? htable]
      rfl

/-- Of the relations that have had their turn, each keeps the foreign key of its turn. -/
theorem keys_classifyAt (h : before.Follows owner turns c) {t₀ t : Table} {r₀ : Relation}
    (hbefore : before.table? owner = some t₀)
    (htable : (c.classifyAt position).1.table? owner = some t) (hlast : t₀.IsLast i r₀)
    (hturn : i < turns) (hlater : position.1 = owner → turns ≤ position.2) :
    t.foreignKeys.lookup r₀.field = some (before.keyInTurn t₀ i r₀) := by
  obtain ⟨t, hnow, rfl⟩ := exists_of_table?_noted htable
  rw [lookup_noted_of_not hnow, h.keys t₀ t i r₀ hbefore hnow hlast hturn]
  rintro r howner hrelation hmany hfield
  have hsame := h.outlasts_of hbefore hnow
  obtain ⟨s, hthere, hends⟩ := hsame.relation_before hrelation
  have hmany' : s.toMany = true := (congrArg (·.2.2.1.isList) hends).trans hmany
  have hfield' : s.field = r₀.field := (congrArg (·.1) hends).trans hfield
  have hfirst := hlast.last position.2 s hthere hmany' hfield'
  have hlate := hlater howner
  omega

/-- **In its turn a relation notes the foreign key that the other end has then.** This is the step
at which `Follows` counts one turn more; at the turns of other tables it stays as it is. -/
theorem classifyAt_here (h : before.Follows owner turns c) :
    before.Follows owner (turns + 1) (c.classifyAt (owner, turns)).1 where
  outlasts := h.outlasts_classifyAt (owner, turns)
  ends name u₀ u i e₀ hbefore htable hrelation hone htarget := by
    refine h.ends_classifyAt
      (fun u i e hrelation htarget => ?_) hbefore htable hrelation hone htarget
    subst htarget
    exact takenFrom_turn hrelation turns
  keys t₀ t i r₀ hbefore htable hlast hturn := by
    by_cases hhere : i = turns
    · subst hhere
      obtain ⟨t, hnow, rfl⟩ := exists_of_table?_noted htable
      have hsame := h.outlasts_of hbefore hnow
      obtain ⟨r, hrelation, hoffer⟩ := hsame.exists_relation hlast.relation
      have hfield : r.field = r₀.field := congrArg (·.1.1) hoffer
      have htarget : r.target = r₀.target := congrArg (·.1.2.1) hoffer
      have hmany : r.toMany = true := (congrArg (·.1.2.2.1.isList) hoffer).trans hlast.toMany
      rw [← hfield, lookup_noted_here hnow hrelation hmany,
        demand_of_offer hsame.kin.name hoffer hmany, htarget,
        h.answerKey_eq_keyInTurn hbefore hlast.relation hlast.toMany]
    · exact h.keys_classifyAt hbefore htable hlast (by omega) fun _ => Nat.le_refl turns

/-- Turns of relations of other tables change nothing. -/
theorem classifyAt_other (h : before.Follows owner turns c) (hother : position.1 ≠ owner) :
    before.Follows owner turns (c.classifyAt position).1 where
  outlasts := h.outlasts_classifyAt position
  ends name u₀ u i e₀ hbefore htable hrelation hone htarget := by
    refine h.ends_classifyAt
      (fun u i e hrelation htarget => ?_) hbefore htable hrelation hone htarget
    rw [saidTo_of_ne hrelation (htarget ▸ hother), Option.or_none]
  keys t₀ t i r₀ hbefore htable hlast hturn :=
    h.keys_classifyAt hbefore htable hlast hturn fun hsame => absurd hsame hother

end Follows

/-! ### Runs

Only the turns of one table are counted (`Follows`).  Relations of other tables come in between,
and must leave the claim at its count.
-/

/-- What every turn of a relation of one table takes further, and turns of others leave alone, is
taken as far as there are relations of that table. -/
theorem classifyAll_follows {I : Nat → Catalog → Prop} {owner : String}
    (hhere : ∀ c n, I n c → I (n + 1) (c.classifyAt (owner, n)).1)
    (hother : ∀ c n position, position.1 ≠ owner → I n c → I n (c.classifyAt position).1)
    (positions : List (String × Nat)) {n m : Nat}
    (hturns : positions.filter (·.1 = owner) = (List.range' n m).map fun i => (owner, i))
    {c : Catalog} (h : I n c) : I (n + m) (c.classifyAll positions).1 := by
  induction positions generalizing c n m with
  | nil =>
    cases m with
    | zero => exact h
    | succ m => cases hturns
  | cons position rest ih =>
    by_cases howner : position.1 = owner
    · rw [List.filter_cons_of_pos (by simpa using howner)] at hturns
      cases m with
      | zero => cases hturns
      | succ m =>
        rw [List.range'_succ, List.map_cons, List.cons.injEq] at hturns
        have hnext := ih hturns.2 (hhere c n h)
        rw [show n + 1 + m = n + (m + 1) by omega, ← hturns.1] at hnext
        exact hnext
    · rw [List.filter_cons_of_neg (by simpa using howner)] at hturns
      exact ih hturns (hother c n position howner h)

/-- The relations of a table have their turns one after another. -/
theorem filter_relationPositions (hnodup : c.tableNames.Nodup) (owner : String) :
    c.relationPositions.filter (·.1 = owner)
      = (List.range' 0 (c.relationsIn owner).length).map fun i => (owner, i) := by
  have hturns : ∀ t : Table,
      ((List.range t.relations.length).map fun i => (t.name, i)).filter (·.1 = owner)
        = if t.name = owner then (List.range t.relations.length).map fun i =>
          (owner, i) else [] := by
    intro t
    by_cases hname : t.name = owner
    · simp [hname, List.filter_map, Function.comp_def]
    · simp [hname, List.filter_map, Function.comp_def]
  rw [relationPositions, List.filter_flatMap]
  simp only [hturns, flatMap_of_nodup hnodup, relationsIn, ← List.range_eq_range']
  change ((c.table? owner).elim _ _) = _
  cases c.table? owner <;> rfl

/-- **In the end all relations of a table have had their turns** (`Catalog.Follows`). -/
theorem follows_classify (hnodup : c.tableNames.Nodup) (owner : String) :
    c.Follows owner (c.relationsIn owner).length c.classify.1 := by
  have hrun := classifyAll_follows (I := fun turns => c.Follows owner turns)
    (fun _ _ h => h.classifyAt_here) (fun _ _ _ hother h => h.classifyAt_other hother)
    c.relationPositions (filter_relationPositions hnodup owner) (Follows.start c owner)
  rwa [Nat.zero_add] at hrun

/-! ### Both ends in the end

A relation to one item is the other end, so it has what it gave, or else what was said first of
all.  A relation to many has what was said first by the time of its own turn.  The two are one
unless something was said first later, and then it also has to differ from the default.
-/

/-- The other end of `r` takes over a foreign key when `r` has had its turn.  So far neither the
other end nor a relation that asks for it gave one; what is given first then is another one than
what both ends assume without. -/
def IsOvertaken (c : Catalog) (t : Table) (i : Nat) (r : Relation) : Prop :=
  ∃ u e key, c.table? r.target = some u ∧ u.otherEnd? (t.demand r) = some e ∧
    e.foreignKey = none ∧ (t.demand r).said (t.relations.take (i + 1)) = none ∧
    present ((t.demand r).said t.relations) = some key ∧ key ≠ (t.demand r).keyOf none

/-- That a relation has no other end is known before relations are classified. -/
theorem otherEnd?_eq_none_iff (hnodup : c.tableNames.Nodup) (target : String) (d : Demand) :
    (c.classify.1.table? target).bind (·.otherEnd? d) = none ↔
      (c.table? target).bind (·.otherEnd? d) = none := by
  obtain ⟨hnone, hnone'⟩ | ⟨u₀, u, hbefore, htable, hsame⟩ :=
    rel_cases ((follows_classify hnodup target).outlasts target)
  · rw [hnone, hnone']
  · rw [hbefore, htable, Option.bind_some, Option.bind_some, ← Option.isNone_iff_eq_none,
      ← Option.isNone_iff_eq_none, Table.isNone_otherEnd?_congr hsame.kin.relations]

theorem isOvertaken_iff (htarget : c.table? r.target = some u)
    (hend : u.otherEnd? (t.demand r) = some e) :
    c.IsOvertaken t i r ↔ e.foreignKey = none ∧
      (t.demand r).said (t.relations.take (i + 1)) = none ∧
      ∃ key, present ((t.demand r).said t.relations) = some key ∧
        key ≠ (t.demand r).keyOf none := by
  constructor
  · rintro ⟨u', e', key, htarget', hend', hnone, hsilent, hlate⟩
    rw [htarget, Option.some.injEq] at htarget'
    subst htarget'
    rw [hend, Option.some.injEq] at hend'
    exact ⟨hend' ▸ hnone, hsilent, key, hlate⟩
  · rintro ⟨hnone, hsilent, key, hlate⟩
    exact ⟨u, e, key, htarget, hend, hnone, hsilent, hlate⟩

/-- What a table was before relations were classified. -/
theorem exists_before (hnodup : c.tableNames.Nodup) (htable : c.classify.1.table? name = some t) :
    ∃ t₀, c.table? name = some t₀ ∧ t₀.Outlasts t := by
  obtain ⟨-, hnone⟩ | ⟨t₀, t', hbefore, htable', hsame⟩ :=
    rel_cases ((follows_classify hnodup "").outlasts name)
  · rw [htable] at hnone
    cases hnone
  · rw [htable, Option.some.injEq] at htable'
    exact ⟨t₀, hbefore, htable' ▸ hsame⟩

/-- The last relation to many on a field has the foreign key of its turn. -/
theorem lookup_of_isLast (hnodup : c.tableNames.Nodup) (htable : c.classify.1.table? name = some t)
    (hlast : t.IsLast i r) : t.foreignKeys.lookup r.field = some (c.keyInTurn t i r) := by
  obtain ⟨t₀, hbefore, hsame⟩ := exists_before hnodup htable
  obtain ⟨r₀, hlast₀, hoffer⟩ := hsame.isLast_before hlast
  have hfield : r₀.field = r.field := congrArg (·.1.1) hoffer
  have htarget : r₀.target = r.target := congrArg (·.1.2.1) hoffer
  have hturn : i < (c.relationsIn name).length := by
    rw [relationsIn, hbefore]
    exact (List.getElem?_eq_some_iff.1 hlast₀.relation).1
  have hoffers : (t.relations.take (i + 1)).map Relation.offer
      = (t₀.relations.take (i + 1)).map Relation.offer := by
    rw [List.map_take, List.map_take, hsame.offers]
  have hsaid : (t.demand r).said (t.relations.take (i + 1))
      = (t.demand r).said (t₀.relations.take (i + 1)) := Demand.said_congr hoffers
  have hkey := (follows_classify hnodup name).keys t₀ t i r₀ hbefore htable hlast₀ hturn
  rw [← hfield, hkey, keyInTurn, keyInTurn, htarget, hsaid,
    ← demand_of_offer hsame.kin.name hoffer.symm hlast.toMany]

theorem keyInTurn_ne (c : Catalog) (t : Table) (i : Nat) (r : Relation) :
    c.keyInTurn t i r ≠ "" := by
  unfold keyInTurn
  cases (c.table? r.target).bind (·.otherEnd? (t.demand r)) with
  | none => exact Table.ownKey_ne _
  | some e => exact Demand.keyOf_ne _ _

theorem foreignKey_of_isLast (hnodup : c.tableNames.Nodup)
    (htable : c.classify.1.table? name = some t)
    (hlast : t.IsLast i r) : t.foreignKey r = c.keyInTurn t i r :=
  Table.foreignKey_of_lookup hlast.toMany (lookup_of_isLast hnodup htable hlast)
    (keyInTurn_ne c t i r)

/-- Relations to many on one field have one foreign key. -/
theorem foreignKey_of_field (hnodup : c.tableNames.Nodup)
    (htable : c.classify.1.table? name = some t)
    (hlast : t.IsLast i r) {r' : Relation} (hmany : r'.toMany = true)
    (hfield : r'.field = r.field) :
    t.foreignKey r' = t.foreignKey r := by
  rw [foreignKey_of_isLast hnodup htable hlast]
  apply Table.foreignKey_of_lookup hmany _ (keyInTurn_ne c t i r)
  rw [hfield, lookup_of_isLast hnodup htable hlast]

/-- The other end of a relation has the foreign key that it gave, or the first that relations
gave. -/
theorem otherEnd?_of_classify (hnodup : c.tableNames.Nodup)
    (htable : c.classify.1.table? name = some t) (hrelation : t.relations[i]? = some r)
    (hmany : r.toMany = true) (htarget : c.classify.1.table? r.target = some u) :
    ∃ u₀, c.table? r.target = some u₀ ∧ (u.otherEnd? (t.demand r)).map (·.foreignKey)
      = (u₀.otherEnd? (t.demand r)).map fun e₀ =>
          e₀.foreignKey.or ((t.demand r).said t.relations) := by
  obtain ⟨t₀, hbefore, hsame⟩ := exists_before hnodup htable
  obtain ⟨u₀, htarget₀, -⟩ := exists_before hnodup htarget
  obtain ⟨r₀, hrelation₀, hmany₀, hleads, hdemand⟩ := exists_of_offers hsame.kin.name hsame.offers
    hrelation hmany
  refine ⟨u₀, htarget₀, ?_⟩
  rw [← hleads] at htarget htarget₀
  have hends := (follows_classify hnodup name).otherEnd? hbefore htarget₀ htarget
  rw [hdemand, relationsIn, hbefore, Option.elim_some, List.take_length] at hends
  rw [hends, Demand.said_congr hsame.offers]

/-- What the other end of a relation was, and the foreign key that it came to. -/
theorem exists_otherEnd?_before (hnodup : c.tableNames.Nodup)
    (htable : c.classify.1.table? name = some t) (hrelation : t.relations[i]? = some r)
    (hmany : r.toMany = true) (htarget : c.classify.1.table? r.target = some u)
    (hend : u.otherEnd? (t.demand r) = some e) :
    ∃ u₀ e₀, c.table? r.target = some u₀ ∧ u₀.otherEnd? (t.demand r) = some e₀ ∧
      e₀.foreignKey.or ((t.demand r).said t.relations) = e.foreignKey := by
  obtain ⟨u₀, htarget₀, hends⟩ := otherEnd?_of_classify hnodup htable hrelation hmany htarget
  rw [hend, Option.map_some, eq_comm, Option.map_eq_some_iff] at hends
  obtain ⟨e₀, hend₀, hkey⟩ := hends
  exact ⟨u₀, e₀, htarget₀, hend₀, hkey⟩

/-- **Both ends of a relation have one foreign key, unless it was given too late**
(`Catalog.IsOvertaken`). -/
theorem foreignKey_eq_iff_not_isOvertaken (hnodup : c.tableNames.Nodup)
    (htable : c.classify.1.table? name = some t) (hlast : t.IsLast i r)
    (htarget : c.classify.1.table? r.target = some u) (hend : u.otherEnd? (t.demand r) = some e) :
    t.foreignKey r = u.foreignKey e ↔ ¬ c.IsOvertaken t i r := by
  obtain ⟨u₀, e₀, htarget₀, hend₀, hkey⟩ :=
    exists_otherEnd?_before hnodup htable hlast.relation hlast.toMany htarget hend
  have hendkey : u.foreignKey e = (t.demand r).keyOf e.foreignKey :=
    Table.foreignKey_of_end hend (name_of_table? htarget)
  rw [foreignKey_of_isLast hnodup htable hlast, keyInTurn, htarget₀, Option.bind_some, hend₀,
    Option.elim_some, hendkey, ← hkey, isOvertaken_iff htarget₀ hend₀]
  exact Demand.keyOf_or_eq_iff fun key hearly => Demand.said_of_take hearly

/-- A relation to one item has the foreign key that it gave, or the one that it took over. -/
theorem foreignKey_of_classify (hnodup : c.tableNames.Nodup)
    (htable : c.classify.1.table? name = some t) (hrelation : t.relations[i]? = some e)
    (hone : e.toMany = false) :
    ∃ t₀ e₀, c.table? name = some t₀ ∧ t₀.relations[i]? = some e₀ ∧
      e.foreignKey = e₀.foreignKey.or (t.takenFrom (c.relationsIn e.target) i e) := by
  obtain ⟨t₀, hbefore, hsame⟩ := exists_before hnodup htable
  obtain ⟨e₀, hrelation₀, hends⟩ := hsame.relation_before hrelation
  have hone₀ : e₀.toMany = false := (congrArg (·.2.2.1.isList) hends).trans hone
  have htarget : e₀.target = e.target := congrArg (·.2.1) hends
  have hkey := (follows_classify hnodup e.target).ends name t₀ t i e₀ hbefore htable hrelation₀
    hone₀ htarget
  rw [hrelation, Option.map_some, Option.some.injEq, List.take_length,
    ← hsame.takenFrom hends.symm rfl] at hkey
  exact ⟨t₀, e₀, hbefore, hrelation₀, hkey⟩

end Catalog

end SchemaLoom
