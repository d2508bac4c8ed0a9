/-
Relations of one name to one table, while classification goes on.

`IsNamesake` says of a position that there is a relation to many items, of a given name, that
leads to a given table.  Several positions may have one, and each of them may have its say on the
index of the name.  What is known of its foreign key may change while classification goes on:
another relation of the same table and name may make the end take over its own.  Then that one
has the foreign key of the end, so some relation of the table has it at any time, and that is the
invariant (`EndIsSettled`).

Two more are kept by every step.  The implied indexes of the name were there before, or are
partitioned by the foreign key of such a relation without another end (`ImpliedAreSettled`); and
one that is implied stays so (`IsImplied`).  The first two need that relations to many items are
on different fields (`ManyFieldsAreDistinct`), since a foreign key is noted under its field.
-/
import SchemaLoom.Proofs.Catalog.Noting

namespace SchemaLoom

/-! ### Fields of relations to many items -/

namespace Table

/-- No two relations to many items of `t` stand on one field. -/
def ManyFieldsAreDistinct (t : Table) : Prop :=
  ((t.relations.filter (·.toMany)).map (·.field)).Nodup

instance (t : Table) : Decidable t.ManyFieldsAreDistinct :=
  inferInstanceAs (Decidable ((t.relations.filter (·.toMany)).map (·.field)).Nodup)

theorem ManyFieldsAreDistinct.eq_of_field {t : Table} (h : t.ManyFieldsAreDistinct) {i j : Nat}
    {r r' : Relation} (hr : t.relations[i]? = some r) (hr' : t.relations[j]? = some r')
    (hmany : r.toMany = true) (hmany' : r'.toMany = true) (hfield : r.field = r'.field) :
    i = j := by
  have hapart := List.pairwise_filter.1 (List.pairwise_map.1 h)
  obtain ⟨hi, rfl⟩ := List.getElem?_eq_some_iff.1 hr
  obtain ⟨hj, rfl⟩ := List.getElem?_eq_some_iff.1 hr'
  rcases Nat.lt_trichotomy i j with hlt | hsame | hlt
  · exact absurd hfield (List.pairwise_iff_getElem.1 hapart i j hi hj hlt hmany hmany')
  · exact hsame
  · exact absurd hfield.symm (List.pairwise_iff_getElem.1 hapart j i hj hi hlt hmany' hmany)

/-- Tables that declare the same agree on whether relations to many items stand on different fields.
-/
theorem Kin.manyFieldsAreDistinct {t t' : Table} (h : t.Kin t')
    (hdistinct : t.ManyFieldsAreDistinct) :
    t'.ManyFieldsAreDistinct := by
  have hfields : ∀ t : Table, (t.relations.filter (·.toMany)).map (·.field)
      = ((t.relations.map Relation.ends).filter (·.2.2.1.isList)).map (·.1) := by
    intro t
    rw [List.filter_map, List.map_map]
    rfl
  unfold ManyFieldsAreDistinct at hdistinct ⊢
  rwa [hfields, h.relations, ← hfields]

end Table

namespace Catalog

/-! ### Relations of one name to one table

The facts about a namesake come in pairs: what its own step of the classification does
(`lookup_noted`), and what the steps of other positions leave alone (`lookup_noted_of_ne`).  The
position stays the same throughout; the table and the relation there are replaced by what they
have become (`classifyAt`).
-/

/-- At `position` the catalog has, in the table `t`, a relation `r` of the name `name` to many items
of the table `target`. -/
structure IsNamesake (name target : String) (position : String × Nat) (t : Table) (r : Relation)
    (c : Catalog) : Prop where
  table : c.table? position.1 = some t
  relation : t.relations[position.2]? = some r
  toMany : r.toMany = true
  named : present r.name = some name
  leads : r.target = target

/-- A table that noted what was found out about the relation at a position, if there is one. -/
def noted (c : Catalog) (position : String × Nat) (t : Table) : Table :=
  (c.finding? position).elim t t.note

variable {name target : String} {c : Catalog} {position other : String × Nat} {t : Table}
  {r : Relation}

theorem kin_noted (c : Catalog) (position : String × Nat) (t : Table) :
    t.Kin (c.noted position t) := by
  unfold noted
  cases c.finding? position with
  | none => exact Table.Kin.refl t
  | some f => exact Table.kin_note t f

theorem offers_noted (c : Catalog) (position : String × Nat) (t : Table) :
    (c.noted position t).relations.map Relation.offer = t.relations.map Relation.offer := by
  unfold noted
  cases c.finding? position with
  | none => rfl
  | some f => exact Table.offers_note t f

theorem table?_noted {u : Table} (h : c.table? name = some u) (position : String × Nat) :
    (c.classifyAt position).1.table? name = some (c.noted position u) := by
  rw [table?_classifyAt, h]
  rfl

theorem exists_of_table?_noted {u' : Table} (h : (c.classifyAt position).1.table? name = some u') :
    ∃ u, c.table? name = some u ∧ u' = c.noted position u := by
  rw [table?_classifyAt, Option.map_eq_some_iff] at h
  obtain ⟨u, htable, rfl⟩ := h
  exact ⟨u, htable, rfl⟩

theorem isNone_otherEnd?_noted (c : Catalog) (position : String × Nat) (t : Table) (d : Demand) :
    ((c.noted position t).otherEnd? d).isNone = (t.otherEnd? d).isNone :=
  Table.isNone_otherEnd?_congr (kin_noted c position t).relations d

namespace IsNamesake

theorem finding? (h : c.IsNamesake name target position t r) :
    c.finding? position = some (c.findingOf t position.2 r) := by
  simp [Catalog.finding?, h.table, h.relation]

theorem demand (h : c.IsNamesake name target position t r) :
    (c.findingOf t position.2 r).demand = some (t.demand r,
      (c.table? target).elim (t.demand r).ownKey fun u => u.answerKey (t.demand r)) := by
  rw [findingOf, ← h.leads]
  exact if_pos h.toMany

/-- What asks for items under a name is a relation of that name. -/
theorem of_demand {f : Finding} {d : Demand} {key : String}
    (hfinding : c.finding? position = some f)
    (hasked : f.demand = some (d, key)) (hname : d.name = some name) (htarget : d.target = target) :
    ∃ t r, c.IsNamesake name target position t r ∧ d = t.demand r ∧
      f = c.findingOf t position.2 r := by
  obtain ⟨t, r, htable, hrelation, rfl⟩ := of_finding?_eq_some hfinding
  simp only [findingOf] at hasked
  split at hasked
  next hmany =>
    simp only [Option.some.injEq, Prod.mk.injEq] at hasked
    obtain ⟨rfl, -⟩ := hasked
    exact ⟨t, r, ⟨htable, hrelation, hmany, hname, htarget⟩, rfl, rfl⟩
  · cases hasked

/-- The relation is still there when others are classified, and says the same. -/
theorem classifyAt (h : c.IsNamesake name target position t r) (other : String × Nat) :
    ∃ r', (c.classifyAt other).1.IsNamesake name target position (c.noted other t) r' ∧
      r'.field = r.field ∧ (c.noted other t).demand r' = t.demand r := by
  have hoffers : ((c.noted other t).relations[position.2]?).map Relation.offer
      = (t.relations[position.2]?).map Relation.offer := by
    rw [← List.getElem?_map, ← List.getElem?_map, offers_noted]
  rw [h.relation, Option.map_some, Option.map_eq_some_iff] at hoffers
  obtain ⟨r', hrelation, hoffer⟩ := hoffers
  have hends : r'.ends = r.ends := congrArg Prod.fst hoffer
  simp only [Relation.ends, Prod.mk.injEq] at hends
  obtain ⟨hfield, htarget, hshape, hname⟩ := hends
  have hmany : r'.toMany = true := by rw [← h.toMany, Relation.toMany, Relation.toMany, hshape]
  refine ⟨r', ⟨table?_noted h.table other, hrelation, hmany, ?_, ?_⟩, hfield, ?_⟩
  · rw [hname, h.named]
  · rw [htarget, h.leads]
  · exact demand_of_offer (kin_noted c other t).name hoffer hmany

/-- Its foreign key is known once it is classified. -/
theorem lookup_noted (h : c.IsNamesake name target position t r) :
    (c.noted position t).foreignKeys.lookup r.field =
      some ((c.table? target).elim (t.demand r).ownKey fun u => u.answerKey (t.demand r)) := by
  rw [noted, h.finding?, Option.elim_some, Table.lookup_note, h.demand]
  exact if_pos ⟨rfl, rfl⟩

/-- The foreign key is kept when others are classified, unless they are on the same field. -/
theorem lookup_noted_of_ne (h : c.IsNamesake name target position t r)
    (hdistinct : t.ManyFieldsAreDistinct) (hother : other ≠ position) :
    (c.noted other t).foreignKeys.lookup r.field = t.foreignKeys.lookup r.field := by
  unfold noted
  cases hfinding : c.finding? other with
  | none => rfl
  | some f =>
    rw [Option.elim_some, Table.lookup_note]
    cases hasked : f.demand with
    | none => rfl
    | some asked =>
      obtain ⟨t', r', htable, hrelation, rfl⟩ := of_finding?_eq_some hfinding
      have hmany : r'.toMany = true := by
        simp only [findingOf] at hasked
        split at hasked
        · assumption
        · cases hasked
      refine if_neg ?_
      rintro ⟨howner, hfield⟩
      have hnames : other.1 = position.1 :=
        (name_of_table? htable).symm.trans (howner.symm.trans (name_of_table? h.table))
      rw [hnames, h.table] at htable
      cases htable
      have hpositions := hdistinct.eq_of_field hrelation h.relation hmany h.toMany hfield.symm
      exact hother (Prod.ext hnames hpositions)

/-- What else asks that table for items is apart, or has the same owner and name. -/
theorem isApart_or_again {owner : String} {i : Nat} (h : c.IsNamesake name target (owner, i) t r)
    {f : Finding} {asked : Demand × String} (hfinding : c.finding? other = some f)
    (hasked : f.demand = some asked) (htarget : asked.1.target = target) :
    asked.1.IsApart (t.demand r) ∨
      ∃ j t' r', other = (owner, j) ∧ c.IsNamesake name target (owner, j) t' r' := by
  by_cases howner : asked.1.owner = (t.demand r).owner
  · by_cases hname : asked.1.name = (t.demand r).name
    · obtain ⟨t', r', hother, hdemand, -⟩ :=
        of_demand hfinding hasked (hname.trans h.named) htarget
      have howners : t'.name = t.name := by
        rw [hdemand] at howner
        exact howner
      have hposition : other = (owner, other.2) := by
        refine Prod.ext ?_ rfl
        exact (name_of_table? hother.table).symm.trans (howners.trans (name_of_table? h.table))
      exact Or.inr ⟨other.2, t', r', hposition, hposition ▸ hother⟩
    · exact Or.inl (Or.inr hname)
  · exact Or.inl (Or.inl howner)

end IsNamesake

/-- No table of `c` has two relations to many items on one field. -/
def ManyFieldsAreDistinct (c : Catalog) : Prop := ∀ t ∈ c.tables, t.ManyFieldsAreDistinct

theorem manyFieldsAreDistinct_classifyAt (h : c.ManyFieldsAreDistinct) (position : String × Nat) :
    (c.classifyAt position).1.ManyFieldsAreDistinct := by
  intro t' ht'
  obtain ⟨t, ht, hkin⟩ := ((survives_kin c).classifyAt (Kin.refl c) position).tables t' ht'
  exact hkin.manyFieldsAreDistinct (h t ht)

/-! ### The end of a relation

A single namesake does not keep the foreign key of its end: a later one may have the end take over
another.  Whichever was classified last has it, so `EndIsSettled` speaks of some namesake of the
owner, and a step either is by such a one or changes nothing about the end.
-/

/-- Some relation of `owner` to many items of `target`, of the name `name`, has noted the foreign
key that its other end has. -/
def EndIsSettled (name target owner : String) (c : Catalog) : Prop :=
  ∃ i t r, c.IsNamesake name target (owner, i) t r ∧
    ∀ u e, c.table? target = some u → u.otherEnd? (t.demand r) = some e →
      t.foreignKeys.lookup r.field = some (u.foreignKey e)

/-- A relation that is classified has the foreign key of its other end. -/
theorem IsNamesake.endIsSettled {owner : String} {i : Nat}
    (h : c.IsNamesake name target (owner, i) t r) :
    EndIsSettled name target owner (c.classifyAt (owner, i)).1 := by
  obtain ⟨r', hafter, hfield, hdemand⟩ := h.classifyAt (owner, i)
  refine ⟨i, _, r', hafter, fun u' e' htable hend => ?_⟩
  obtain ⟨u, hbefore, rfl⟩ := exists_of_table?_noted htable
  rw [hdemand, noted, h.finding?, Option.elim_some] at hend
  have htarget : u.name = (t.demand r).target := (name_of_table? hbefore).trans h.leads.symm
  have hends := Table.unkinded_otherEnd?_note_self h.demand htarget
  rw [hend, Option.map_some, eq_comm, Option.map_eq_some_iff] at hends
  obtain ⟨e, hendbefore, hsame⟩ := hends
  obtain ⟨-, -, -, -, -, hone⟩ := Table.otherEnd?_eq_some hendbefore
  rw [hfield, h.lookup_noted, hbefore, Option.elim_some, Table.answerKey, hendbefore,
    Option.elim_some]
  exact congrArg some
    (Table.foreignKey_of_unkinded (kin_noted c (owner, i) u).name hsame.symm hone).symm

/-- Of several relations of one name and table the one that was classified last has it. -/
theorem endIsSettled_classifyAt (hdistinct : c.ManyFieldsAreDistinct) {owner : String}
    (h : EndIsSettled name target owner c) (other : String × Nat) :
    EndIsSettled name target owner (c.classifyAt other).1 := by
  obtain ⟨i, t, r, hnamesake, hsettled⟩ := h
  by_cases hagain : ∃ j t' r', other = (owner, j) ∧ c.IsNamesake name target (owner, j) t' r'
  · obtain ⟨j, t', r', rfl, hother⟩ := hagain
    exact hother.endIsSettled
  obtain ⟨r', hafter, hfield, hdemand⟩ := hnamesake.classifyAt other
  refine ⟨i, _, r', hafter, fun u' e' htable hend => ?_⟩
  obtain ⟨u, hbefore, rfl⟩ := exists_of_table?_noted htable
  rw [hdemand] at hend
  have hends : ((c.noted other u).otherEnd? (t.demand r)).map Relation.unkinded
      = (u.otherEnd? (t.demand r)).map Relation.unkinded := by
    unfold noted
    cases hfinding : c.finding? other with
    | none => rfl
    | some f =>
      refine Table.unkinded_otherEnd?_note fun asked hasked htarget => ?_
      have hleads := htarget.symm.trans (name_of_table? hbefore)
      exact (hnamesake.isApart_or_again hfinding hasked hleads).resolve_right hagain
  rw [hend, Option.map_some, eq_comm, Option.map_eq_some_iff] at hends
  obtain ⟨e, hendbefore, hsame⟩ := hends
  obtain ⟨-, -, -, -, -, hone⟩ := Table.otherEnd?_eq_some hendbefore
  have hother : other ≠ (owner, i) := fun hsame => hagain ⟨i, t, r, hsame, hnamesake⟩
  rw [hfield, hnamesake.lookup_noted_of_ne (hdistinct t (mem_of_table? hnamesake.table).1) hother,
    hsettled u e hbefore hendbefore]
  exact congrArg some
    (Table.foreignKey_of_unkinded (kin_noted c other u).name hsame.symm hone).symm

/-! ### Implied indexes

An implied index has the name of the relation that implies it, so that two relations of one name
to the same table ask for one index.
-/

/-- Every index of the name `name` that is implied in `target` is one of `before`, or is partitioned
by what a namesake without another end has noted. -/
def ImpliedAreSettled (name target : String) (before : List Index) (c : Catalog) : Prop :=
  ∀ u, c.table? target = some u → ∀ i ∈ u.impliedIndexes, i.name = name → i ∈ before ∨
    ∃ position t r, c.IsNamesake name target position t r ∧
      (u.otherEnd? (t.demand r)).isNone = true ∧ i.partition = (t.demand r).ownKey ∧
      t.foreignKeys.lookup r.field = some i.partition

theorem IsNamesake.lookup_noted_of_isNone {u : Table} (h : c.IsNamesake name target position t r)
    (htable : c.table? target = some u) (hend : (u.otherEnd? (t.demand r)).isNone = true) :
    (c.noted position t).foreignKeys.lookup r.field = some (t.demand r).ownKey := by
  rw [h.lookup_noted, htable, Option.elim_some, Table.answerKey, Option.isNone_iff_eq_none.1 hend]
  rfl

theorem impliedAreSettled_classifyAt {before : List Index} (hdistinct : c.ManyFieldsAreDistinct)
    (h : ImpliedAreSettled name target before c) (other : String × Nat) :
    ImpliedAreSettled name target before (c.classifyAt other).1 := by
  intro u' htable i hi hname
  obtain ⟨u, hbefore, rfl⟩ := exists_of_table?_noted htable
  -- The index was there before, or the relation at the position has just implied it.
  have hsources : i ∈ u.impliedIndexes ∨ ∃ t r, c.IsNamesake name target other t r ∧
      (u.otherEnd? (t.demand r)).isNone = true ∧ i.partition = (t.demand r).ownKey := by
    unfold noted at hi
    cases hfinding : c.finding? other with
    | none =>
      rw [hfinding] at hi
      exact Or.inl hi
    | some f =>
      rw [hfinding] at hi
      rcases Table.mem_impliedIndexes_note hi with
          hold | ⟨d, key, hasked, htarget, hend, halso, hkey⟩
      · exact Or.inl hold
      · obtain ⟨t, r, hnamesake, rfl, -⟩ := IsNamesake.of_demand hfinding hasked
          (hname ▸ halso) (htarget.symm.trans (name_of_table? hbefore))
        exact Or.inr ⟨t, r, hnamesake, hend, hkey⟩
  rcases hsources with hold | ⟨t, r, hnamesake, hend, hkey⟩
  · rcases h u hbefore i hold hname with hthere | ⟨position, t, r, hnamesake, hend, hkey, hlookup⟩
    · exact Or.inl hthere
    · obtain ⟨r', hafter, hfield, hdemand⟩ := hnamesake.classifyAt other
      refine Or.inr ⟨position, _, r', hafter, ?_, ?_, ?_⟩
      · rw [hdemand, isNone_otherEnd?_noted, hend]
      · rw [hdemand, hkey]
      · rw [hfield]
        by_cases hhere : other = position
        · rw [hhere, hnamesake.lookup_noted_of_isNone hbefore hend, hkey]
        · rw [hnamesake.lookup_noted_of_ne (hdistinct t (mem_of_table? hnamesake.table).1) hhere,
            hlookup]
  · obtain ⟨r', hafter, hfield, hdemand⟩ := hnamesake.classifyAt other
    refine Or.inr ⟨other, _, r', hafter, ?_, ?_, ?_⟩
    · rw [hdemand, isNone_otherEnd?_noted, hend]
    · rw [hdemand, hkey]
    · rw [hfield, hnamesake.lookup_noted_of_isNone hbefore hend, hkey]

/-- An index of the name `name` is implied in the table `target`. -/
def IsImplied (name target : String) (c : Catalog) : Prop :=
  ∃ u, c.table? target = some u ∧ ∃ i ∈ u.impliedIndexes, i.name = name

theorem isImplied_classifyAt (h : IsImplied name target c) (other : String × Nat) :
    IsImplied name target (c.classifyAt other).1 := by
  obtain ⟨u, htable, i, hi, hname⟩ := h
  refine ⟨c.noted other u, table?_noted htable other, i, ?_, hname⟩
  unfold noted
  cases c.finding? other with
  | none => exact hi
  | some f => exact Table.impliedIndexes_note_of_mem hi f

/-- A relation without another end implies an index when it is classified. -/
theorem IsNamesake.isImplied {u : Table} (h : c.IsNamesake name target position t r)
    (htable : c.table? target = some u) (hend : (u.otherEnd? (t.demand r)).isNone = true) :
    IsImplied name target (c.classifyAt position).1 := by
  refine ⟨c.noted position u, table?_noted htable position, ?_⟩
  rw [noted, h.finding?, Option.elim_some]
  have htarget : u.name = (t.demand r).target := (name_of_table? htable).trans h.leads.symm
  exact Table.exists_impliedIndex_note h.demand htarget h.named hend

end Catalog

end SchemaLoom
