/-
Foreign keys that relations say to another end.

A relation to many items may give the name of the key under which items of the other table hold
its own.  Of the relations of a table that ask for one end the first that gives a name is heard
(`Demand.said`), and the end takes the name over unless it has one.  For a single note that is
`Table.foreignKey_note`; the first relations of a table together say what `Table.takenFrom` adds up,
and one more relation adds to it what its own finding says (`takenFrom_take_succ`).

Relations are followed by their positions.  A note changes kinds and foreign keys but no position,
so what a relation declares (`Relation.ends`) is what it is known by throughout.
-/
import SchemaLoom.Proofs.Catalog.ImpliedKey

namespace SchemaLoom

/-! ### What relations say to another end -/

namespace Demand

/-- The relation `r` asks for the end that `d` asks for. -/
def isMadeBy (d : Demand) (r : Relation) : Bool :=
  r.toMany && present r.name = d.name && r.target = d.target

/-- The first foreign key that relations say to the end. -/
def said (d : Demand) (rs : List Relation) : Option String :=
  rs.findSome? fun r => if d.isMadeBy r then r.foreignKey else none

/-- The foreign key of an end that was said one. -/
def keyOf (d : Demand) (key : Option String) : String :=
  (present key).getD (Text.lowerFirst d.target ++ d.owner ++ "Id")

/-- The demands are for the same end, whatever foreign keys they say. -/
structure Alike (d d' : Demand) : Prop where
  owner : d.owner = d'.owner
  target : d.target = d'.target
  name : d.name = d'.name

variable {d d' : Demand} {rs rs' : List Relation}

theorem Alike.isMetBy (h : d.Alike d') : d.isMetBy = d'.isMetBy := by
  funext e
  rw [Demand.isMetBy, Demand.isMetBy, h.owner, h.name]

theorem Alike.isMadeBy (h : d.Alike d') : d.isMadeBy = d'.isMadeBy := by
  funext r
  rw [Demand.isMadeBy, Demand.isMadeBy, h.name, h.target]

theorem Alike.said (h : d.Alike d') (rs : List Relation) : d.said rs = d'.said rs := by
  rw [Demand.said, Demand.said, h.isMadeBy]

theorem Alike.keyOf (h : d.Alike d') (key : Option String) : d.keyOf key = d'.keyOf key := by
  rw [Demand.keyOf, Demand.keyOf, h.owner, h.target]

theorem keyOf_ne (d : Demand) (key : Option String) : d.keyOf key ≠ "" :=
  Table.getD_present_ne (by simp)

/-- What is said early to an end decides its foreign key, unless it gave one; what is said late
makes a difference only if nothing was said early. -/
theorem keyOf_or_eq_iff {given early late : Option String}
    (hfirst : ∀ key, early = some key → late = some key) :
    d.keyOf (given.or early) = d.keyOf (given.or late) ↔
      ¬ (given = none ∧ early = none ∧ ∃ key, present late = some key ∧ key ≠ d.keyOf none) := by
  rcases given with _ | key
  · rcases early with _ | key
    · have hkey : d.keyOf late = (present late).getD (d.keyOf none) := rfl
      rw [Option.none_or, Option.none_or, hkey]
      cases present late with
      | none => simp
      | some key => simp [eq_comm]
    · simp [hfirst key rfl]
  · simp

/-- What is said depends on what relations say to other tables. -/
theorem said_congr (h : rs.map Relation.offer = rs'.map Relation.offer) :
    d.said rs = d.said rs' := by
  have hsaid := map_eq_of_map_eq
    (f := fun r : Relation => if d.isMadeBy r then r.foreignKey else none) ?_ h
  · simpa [said, List.findSome?_map, Function.comp_def] using congrArg (·.findSome? id) hsaid
  · intro r r' hoffer
    simp only [Relation.offer, Relation.ends, Prod.mk.injEq] at hoffer
    obtain ⟨⟨-, htarget, hshape, hname⟩, hkey⟩ := hoffer
    have hmany : r.toMany = r'.toMany := by rw [Relation.toMany, Relation.toMany, hshape]
    have hmade : d.isMadeBy r = d.isMadeBy r' := by
      rw [isMadeBy, isMadeBy, hmany, hname, htarget]
    by_cases hhere : r'.toMany = true
    · rw [hmany, if_pos hhere, if_pos hhere] at hkey
      rw [hmade, hkey]
    · simp [isMadeBy, hmany, hhere]

theorem said_take_succ (d : Demand) (rs : List Relation) (n : Nat) :
    d.said (rs.take (n + 1)) = (d.said (rs.take n)).or
      (rs[n]?.bind fun r => if d.isMadeBy r then r.foreignKey else none) := by
  rw [List.take_add_one, said, List.findSome?_append]
  cases rs[n]? <;> simp [said]

/-- What was said first is said first of more relations. -/
theorem said_of_take {n : Nat} {key : String} (h : d.said (rs.take n) = some key) :
    d.said rs = some key := by
  rw [← List.take_append_drop n rs, said, List.findSome?_append]
  rw [said] at h
  rw [h, Option.some_or]

/-- A relation that asks for the end says something if it gives a foreign key. -/
theorem isSome_said {r : Relation} (hr : r ∈ rs) (hmade : d.isMadeBy r = true)
    (hkey : r.foreignKey.isSome = true) : (d.said rs).isSome = true := by
  rw [said, List.isSome_findSome?, List.any_eq_true]
  exact ⟨r, hr, by rwa [if_pos hmade]⟩

/-- A relation asks for the end that it demands. -/
theorem isMadeBy_demand {t : Table} {r : Relation} (hmany : r.toMany = true) :
    (t.demand r).isMadeBy r = true := by
  simp [isMadeBy, Table.demand, hmany]

end Demand

namespace Table

variable {t t' u : Table} {r e : Relation} {i : Nat}

/-- The foreign key of the other end of a relation. -/
theorem foreignKey_of_end {d : Demand} (hend : u.otherEnd? d = some e) (hname : u.name = d.target) :
    u.foreignKey e = d.keyOf e.foreignKey := by
  obtain ⟨-, -, -, -, htarget, hone⟩ := otherEnd?_eq_some hend
  rw [foreignKey_of_toOne u hone, htarget, hname]
  rfl

/-! ### Relations by position

The other end of a demand is found at the first position where a relation meets it
(`otherEnd?_eq_some_iff`).  Whether a relation meets a demand depends on its ends, so the position
is the same before and after any note.
-/

theorem foreignKey_adoptFirst (isChosen : Relation → Bool) (key : Option String)
    (rs : List Relation) (i : Nat) :
    (adoptFirst isChosen key rs)[i]?.map (·.foreignKey)
      = rs[i]?.map fun e =>
          e.foreignKey.or (if rs.findIdx? isChosen = some i then key else none) := by
  cases hfound : rs.findIdx? isChosen with
  | none =>
    rw [adoptFirst_of_none (List.findIdx?_eq_none_iff.1 hfound)]
    simp
  | some position =>
    rw [← modify_findIdx? isChosen key rs hfound, List.getElem?_modify]
    by_cases hhere : position = i
    · cases rs[i]? <;> simp [hhere, Relation.adopt]
    · simp [hhere]

/-- Where the other end of a relation is depends on the ends of relations. -/
theorem findIdx?_isMetBy_congr (h : t.relations.map Relation.ends = t'.relations.map Relation.ends)
    (d : Demand) : t.relations.findIdx? d.isMetBy = t'.relations.findIdx? d.isMetBy := by
  have hmet := map_eq_of_map_eq (f := d.isMetBy) ?_ h
  · simpa [List.findIdx?_map, Function.comp_def] using congrArg (·.findIdx? id) hmet
  · intro r r' hends
    simp only [Relation.ends, Prod.mk.injEq] at hends
    obtain ⟨-, htarget, hshape, hname⟩ := hends
    simp only [Demand.isMetBy, isEnd, Relation.toMany, htarget, hshape, hname]

/-- The other end of a relation is at the first position where one is. -/
theorem otherEnd?_eq_some_iff {d : Demand} :
    t.otherEnd? d = some e ↔
      ∃ i, t.relations.findIdx? d.isMetBy = some i ∧ t.relations[i]? = some e := by
  simp only [otherEnd?, List.find?_eq_some_iff_getElem, List.findIdx?_eq_some_iff_getElem,
    List.getElem?_eq_some_iff]
  constructor
  · rintro ⟨hmet, i, hi, rfl, hfirst⟩
    exact ⟨i, ⟨hi, hmet, fun j hj => by simpa using hfirst j hj⟩, hi, rfl⟩
  · rintro ⟨i, ⟨hi, hmet, hfirst⟩, _, rfl⟩
    exact ⟨hmet, i, hi, rfl, fun j hj => by simpa using hfirst j hj⟩

/-- The foreign key that a finding says to the relation at a position. -/
def saidTo (t : Table) (f : Finding) (i : Nat) : Option String :=
  f.demand.bind fun asked =>
    if t.name = asked.1.target ∧ t.relations.findIdx? asked.1.isMetBy = some i then
      asked.1.foreignKey
    else none

/-- A relation keeps its foreign key, or takes over the one that the finding says to it. -/
theorem foreignKey_note (t : Table) (f : Finding) (i : Nat) :
    (t.note f).relations[i]?.map (·.foreignKey)
      = t.relations[i]?.map fun e => e.foreignKey.or (t.saidTo f i) := by
  have hkind : (t.noteKind f).relations[i]?.map (·.foreignKey)
      = t.relations[i]?.map (·.foreignKey) := by
    have hunkinded := congrArg (fun rs => (rs.map (·.foreignKey))[i]?) (map_unkinded_noteKind t f)
    simpa [List.map_map, Function.comp_def, Relation.unkinded] using hunkinded
  have hends := (kin_noteKind t f).relations
  rw [note, relations_noteKey]
  unfold noteDemand saidTo
  cases hasked : f.demand with
  | none => simpa using hkind
  | some asked =>
    simp only [name_noteKind, Option.bind_some]
    by_cases htarget : t.name = asked.1.target
    · rw [if_pos htarget, relations_answer, foreignKey_adoptFirst,
        findIdx?_isMetBy_congr hends]
      cases hold : t.relations[i]? with
      | none =>
        rw [hold] at hkind
        simpa using hkind
      | some e =>
        rw [hold, Option.map_some, Option.map_eq_some_iff] at hkind
        obtain ⟨e', hnew, hsame⟩ := hkind
        simp [hnew, hsame, htarget]
    · rw [if_neg htarget, hkind]
      simp [htarget]

/-- What a relation to one item is asked for by the table that it leads to. -/
def awaited (t : Table) (e : Relation) : Demand := ⟨e.target, t.name, present e.name, none⟩

/-- The foreign key that relations of another table say to the relation at a position: the first
relation that they ask for takes it over. -/
def takenFrom (t : Table) (rs : List Relation) (i : Nat) (e : Relation) : Option String :=
  if t.relations.findIdx? (t.awaited e).isMetBy = some i then (t.awaited e).said rs else none

/-- What meets the demand of a relation is asked for by it. -/
theorem alike_of_isMetBy {s : Table} (hmet : (s.demand r).isMetBy e = true)
    (htarget : t.name = r.target) : (t.awaited e).Alike (s.demand r) := by
  obtain ⟨name, hname, hsame, howner, -⟩ := Demand.isMetBy_iff.1 hmet
  have hnamed : present r.name = some name := hname
  refine ⟨howner, htarget, ?_⟩
  rw [awaited, demand, hsame, ← (Catalog.of_present_eq_some hnamed).1]

/-- A relation that asks for an end demands it. -/
theorem alike_of_isMadeBy {s : Table} (hmade : (t.awaited e).isMadeBy r = true)
    (howner : s.name = e.target) : (s.demand r).Alike (t.awaited e) := by
  simp only [Demand.isMadeBy, Bool.and_eq_true, decide_eq_true_eq] at hmade
  exact ⟨howner, hmade.2, hmade.1.2⟩

/-- A finding about relations of one table says nothing to relations that lead to another one. -/
theorem saidTo_of_ne {f : Finding} (hrelation : t.relations[i]? = some e)
    (howner : f.owner ≠ e.target) : t.saidTo f i = none := by
  unfold saidTo
  cases hasked : f.demand with
  | none => rfl
  | some asked =>
    refine if_neg fun h => howner ?_
    obtain ⟨hi, hmet, -⟩ := List.findIdx?_eq_some_iff_getElem.1 h.2
    rw [(List.getElem?_eq_some_iff.1 hrelation).2] at hmet
    obtain ⟨-, -, -, htarget, -⟩ := Demand.isMetBy_iff.1 hmet
    rw [htarget, f.owned _ hasked]

/-- What is found out about a relation of another table says its foreign key to the first relation
that it asks for. -/
theorem saidTo_findingOf {c : Catalog} {s : Table} {n : Nat} (hrelation : t.relations[i]? = some e)
    (howner : s.name = e.target) :
    t.saidTo (c.findingOf s n r) i =
      if t.relations.findIdx? (t.awaited e).isMetBy = some i ∧ (t.awaited e).isMadeBy r = true then
        r.foreignKey
      else none := by
  by_cases hmany : r.toMany = true
  · have hasked : t.saidTo (c.findingOf s n r) i =
        if t.name = r.target ∧ t.relations.findIdx? (s.demand r).isMetBy = some i then
          r.foreignKey
        else none := by
      rw [saidTo, show (c.findingOf s n r).demand = some (s.demand r, _) from if_pos hmany]
      rfl
    rw [hasked]
    refine if_congr ⟨?_, ?_⟩ rfl rfl
    · rintro ⟨htarget, hplace⟩
      obtain ⟨hi, hmet, -⟩ := List.findIdx?_eq_some_iff_getElem.1 hplace
      rw [(List.getElem?_eq_some_iff.1 hrelation).2] at hmet
      have halike := alike_of_isMetBy hmet htarget
      rw [halike.isMetBy, halike.isMadeBy]
      exact ⟨hplace, Demand.isMadeBy_demand hmany⟩
    · rintro ⟨hplace, hmade⟩
      have halike := alike_of_isMadeBy hmade howner
      rw [halike.isMetBy]
      exact ⟨halike.target.symm, hplace⟩
  · have hnone : (c.findingOf s n r).demand = none := if_neg hmany
    simp [saidTo, hnone, Demand.isMadeBy, hmany]

/-- What the first relations of a table say to an end, and what is found out about the next one. -/
theorem takenFrom_take_succ {c : Catalog} {s : Table} {n : Nat}
    (hrelation : t.relations[i]? = some e) (howner : s.name = e.target)
    (hnext : s.relations[n]? = some r) :
    t.takenFrom (s.relations.take (n + 1)) i e
      = (t.takenFrom (s.relations.take n) i e).or (t.saidTo (c.findingOf s n r) i) := by
  rw [saidTo_findingOf hrelation howner, takenFrom, takenFrom]
  by_cases hplace : t.relations.findIdx? (t.awaited e).isMetBy = some i
  · simp only [hplace, ↓reduceIte, true_and, Demand.said_take_succ, hnext, Option.bind_some]
  · simp [hplace]

/-- The other end of a named relation is the first relation of the name that leads back to one
item. -/
theorem otherEnd?_demand {name : String} (hname : present r.name = some name) :
    u.otherEnd? (t.demand r) = u.reciprocal? name t.name false := by
  have hmet : (t.demand r).isMetBy = isEnd name t.name false := by
    funext e
    simp [Demand.isMetBy, demand, hname]
  rw [otherEnd?, reciprocal?, hmet]

/-- The relation `r`, at the position `i`, is the last one of `t` to many items on its field. -/
structure IsLast (t : Table) (i : Nat) (r : Relation) : Prop where
  relation : t.relations[i]? = some r
  toMany : r.toMany = true
  last : ∀ j s, t.relations[j]? = some s → s.toMany = true → s.field = r.field → j ≤ i

theorem exists_isLast (hrelation : t.relations[i]? = some r) (hmany : r.toMany = true) :
    ∃ j s, t.IsLast j s ∧ s.field = r.field := by
  induction hleft : t.relations.length - i using Nat.strong_induction_on generalizing i r with
  | _ left ih =>
    by_cases hlater : ∃ j s, t.relations[j]? = some s ∧ s.toMany = true ∧ s.field = r.field ∧ i < j
    · obtain ⟨j, s, hs, hmany', hfield, hlt⟩ := hlater
      have hbound : j < t.relations.length := (List.getElem?_eq_some_iff.1 hs).1
      obtain ⟨k, s', hlast, hfield'⟩ := ih (t.relations.length - j) (by omega) hs hmany' rfl
      exact ⟨k, s', hlast, hfield'.trans hfield⟩
    · refine ⟨i, r, ⟨hrelation, hmany, fun j s hs hmany' hfield => ?_⟩, rfl⟩
      by_contra hnot
      exact hlater ⟨j, s, hs, hmany', hfield, by omega⟩

/-- The table `t'` declares what `t` declares, and its relations say the same to other tables. -/
structure Outlasts (t t' : Table) : Prop where
  kin : t.Kin t'
  offers : t'.relations.map Relation.offer = t.relations.map Relation.offer

theorem Outlasts.refl (t : Table) : t.Outlasts t := ⟨Kin.refl t, rfl⟩

/-- A relation of a table that outlasts another one says what it said there. -/
theorem Outlasts.exists_relation (h : t.Outlasts t') (hrelation : t.relations[i]? = some r) :
    ∃ r', t'.relations[i]? = some r' ∧ r'.offer = r.offer := by
  have hoffer : t'.relations[i]?.map Relation.offer = t.relations[i]?.map Relation.offer := by
    rw [← List.getElem?_map, ← List.getElem?_map, h.offers]
  rw [hrelation, Option.map_some, Option.map_eq_some_iff] at hoffer
  exact hoffer

theorem Outlasts.relation_before (h : t.Outlasts t') {r' : Relation}
    (hrelation : t'.relations[i]? = some r') :
    ∃ r, t.relations[i]? = some r ∧ r.ends = r'.ends := by
  have hends : t.relations[i]?.map Relation.ends = t'.relations[i]?.map Relation.ends := by
    rw [← List.getElem?_map, ← List.getElem?_map, h.kin.relations]
  rwa [hrelation, Option.map_some, Option.map_eq_some_iff] at hends

/-- The last relation to many on a field was so before. -/
theorem Outlasts.isLast_before (h : t.Outlasts t') {r' : Relation} (hlast : t'.IsLast i r') :
    ∃ r, t.IsLast i r ∧ r.offer = r'.offer := by
  have hoffer : t.relations[i]?.map Relation.offer = t'.relations[i]?.map Relation.offer := by
    rw [← List.getElem?_map, ← List.getElem?_map, h.offers]
  rw [hlast.relation, Option.map_some, Option.map_eq_some_iff] at hoffer
  obtain ⟨r, hrelation, hsame⟩ := hoffer
  have hmany : r.toMany = r'.toMany := congrArg (·.1.2.2.1.isList) hsame
  have hfield : r.field = r'.field := congrArg (·.1.1) hsame
  refine ⟨r, ⟨hrelation, hmany.trans hlast.toMany, fun j s hs hmany' hfield' => ?_⟩, hsame⟩
  obtain ⟨s', hs', hoffer'⟩ := h.exists_relation hs
  exact hlast.last j s' hs' ((congrArg (·.1.2.2.1.isList) hoffer').trans hmany')
    ((congrArg (·.1.1) hoffer').trans (hfield'.trans hfield))

theorem Outlasts.awaited (h : t.Outlasts t') {e' : Relation} (hends : e'.ends = e.ends) :
    t'.awaited e' = t.awaited e := by
  simp only [Relation.ends, Prod.mk.injEq] at hends
  rw [Table.awaited, Table.awaited, h.kin.name, hends.2.1, hends.2.2.2]

theorem Outlasts.takenFrom (h : t.Outlasts t') {e' : Relation} (hends : e'.ends = e.ends)
    {rs rs' : List Relation} (hoffers : rs'.map Relation.offer = rs.map Relation.offer) :
    t'.takenFrom rs' i e' = t.takenFrom rs i e := by
  rw [Table.takenFrom, Table.takenFrom, h.awaited hends,
    findIdx?_isMetBy_congr h.kin.relations, Demand.said_congr hoffers]

end Table

end SchemaLoom
