/-
The foreign keys that relations imply.

A relation to many items of a table asks for its other end there.  If there is none, the foreign
key of the relation is implied in the table.  Whether a relation has another end does not change
while relations are classified, nor does what it asks for: so in the end just those foreign keys
are implied whose relations have no other end (`mem_impliedForeignKeys_iff`).

The induction is on the positions that are classified.  What one position implies is one
equivalence (`mem_impliedForeignKeys_noted`), and what the later ones ask for is the same before
and after it (`asks_classifyAt`).

That is an equivalence of sets.  In which order the foreign keys are implied depends on the order
in which tables are classified.
-/
import SchemaLoom.Proofs.Catalog.Namesake

namespace SchemaLoom

namespace Table

/-! ### Single tables

A foreign key is implied in answer to a demand that no other end meets, and at no other time.
-/

theorem impliedForeignKeys_noteKind (t : Table) (f : Finding) :
    (t.noteKind f).impliedForeignKeys = t.impliedForeignKeys := by
  unfold noteKind
  split
  · cases f.key <;> rfl
  · rfl

theorem impliedForeignKeys_noteKey (t : Table) (f : Finding) :
    (t.noteKey f).impliedForeignKeys = t.impliedForeignKeys := by
  unfold noteKey
  split
  · split <;> rfl
  · rfl

/-- A finding implies the foreign key of a relation that leads to the table and has no other end. -/
theorem mem_impliedForeignKeys_note {t : Table} {f : Finding} {key : String} :
    key ∈ (t.note f).impliedForeignKeys ↔ key ∈ t.impliedForeignKeys ∨
      ∃ d answer, f.demand = some (d, answer) ∧ t.name = d.target ∧
        (t.otherEnd? d).isNone = true ∧ key = d.ownKey := by
  rw [note, impliedForeignKeys_noteKey]
  unfold noteDemand
  cases hasked : f.demand with
  | none => simp [impliedForeignKeys_noteKind]
  | some asked =>
    obtain ⟨d, answer⟩ := asked
    simp only [name_noteKind]
    by_cases htarget : t.name = d.target
    · rw [if_pos htarget, mem_implied_answer, impliedForeignKeys_noteKind,
        isNone_otherEnd?_noteKind]
      refine or_congr_right ⟨?_, ?_⟩
      · rintro ⟨hend, hkey⟩
        exact ⟨d, answer, rfl, htarget, hend, hkey⟩
      · rintro ⟨_, _, hsame, -, hend, hkey⟩
        cases hsame
        exact ⟨hend, hkey⟩
    · rw [if_neg htarget, impliedForeignKeys_noteKind]
      refine ⟨Or.inl, fun h => h.resolve_right ?_⟩
      rintro ⟨_, _, hsame, hother, -⟩
      cases hsame
      exact htarget hother

end Table

namespace Catalog

variable {c : Catalog} {position other : String × Nat} {t u : Table} {r : Relation}
  {name key : String}

/-! ### Relations without another end

Which relation has another end is the same throughout a run, so that the condition can be asked of
the catalog in front of it (`Asks`).
-/

/-- At `position` the catalog has, in `t`, a relation `r` to many items of `u`, and `u` has no other
end of it. -/
structure IsOneSided (position : String × Nat) (t u : Table) (r : Relation)
    (c : Catalog) : Prop where
  table : c.table? position.1 = some t
  relation : t.relations[position.2]? = some r
  toMany : r.toMany = true
  target : c.table? r.target = some u
  noEnd : (u.otherEnd? (t.demand r)).isNone = true

/-- The relation at `position` implies the foreign key `key` in the table `u`. -/
def Asks (c : Catalog) (position : String × Nat) (u : Table) (key : String) : Prop :=
  ∃ t r, c.IsOneSided position t u r ∧ (t.demand r).ownKey = key

/-- Relations of tables that say the same ask for the same. -/
theorem exists_of_offers {t t' : Table} (hname : t.name = t'.name)
    (hoffers : t.relations.map Relation.offer = t'.relations.map Relation.offer) {i : Nat}
    (hrelation : t.relations[i]? = some r) (hmany : r.toMany = true) :
    ∃ r', t'.relations[i]? = some r' ∧ r'.toMany = true ∧ r'.target = r.target ∧
      t'.demand r' = t.demand r := by
  have hoffer : (t'.relations[i]?).map Relation.offer = (t.relations[i]?).map Relation.offer := by
    rw [← List.getElem?_map, ← List.getElem?_map, hoffers]
  rw [hrelation, Option.map_some, Option.map_eq_some_iff] at hoffer
  obtain ⟨r', hrelation', hsame⟩ := hoffer
  have hmany' : r'.toMany = true := (congrArg (·.1.2.2.1.isList) hsame).trans hmany
  exact ⟨r', hrelation', hmany', congrArg (·.1.2.1) hsame,
    demand_of_offer hname.symm hsame hmany'⟩

/-- **What is asked for does not change while relations are classified**: `Asks` says the same
before and after a step. -/
theorem asks_classifyAt (htable : c.table? name = some u) :
    (c.classifyAt other).1.Asks position (c.noted other u) key ↔ c.Asks position u key := by
  constructor
  · rintro ⟨t', r', h, rfl⟩
    obtain ⟨t, howner, rfl⟩ := exists_of_table?_noted h.table
    obtain ⟨r, hrelation, hmany, hsame, hdemand⟩ := exists_of_offers (kin_noted c other t).name
      (offers_noted c other t) h.relation h.toMany
    have htarget : r.target = name := by
      rw [hsame, ← name_of_table? h.target, (kin_noted c other u).name, name_of_table? htable]
    refine ⟨t, r, ⟨howner, hrelation, hmany, htarget ▸ htable, ?_⟩, by rw [hdemand]⟩
    rw [hdemand, ← isNone_otherEnd?_noted c other u, h.noEnd]
  · rintro ⟨t, r, h, rfl⟩
    obtain ⟨r', hrelation, hmany, htarget, hdemand⟩ := exists_of_offers
      (kin_noted c other t).name.symm (offers_noted c other t).symm h.relation h.toMany
    refine ⟨_, r', ⟨table?_noted h.table other, hrelation, hmany, ?_, ?_⟩, by rw [hdemand]⟩
    · rw [htarget, table?_noted h.target other]
    · rw [hdemand, isNone_otherEnd?_noted, h.noEnd]

/-! ### Steps and runs

By induction over the relations, the keys that are implied behind a run are those that were
implied before, and those that a relation without another end asks for.
-/

/-- What classifying one relation implies. -/
theorem mem_impliedForeignKeys_noted (htable : c.table? name = some u) :
    key ∈ (c.noted position u).impliedForeignKeys ↔
      key ∈ u.impliedForeignKeys ∨ c.Asks position u key := by
  unfold noted
  cases hfinding : c.finding? position with
  | none =>
    refine ⟨Or.inl, fun h => h.resolve_right ?_⟩
    rintro ⟨t, r, h, -⟩
    simp [finding?, h.table, h.relation] at hfinding
  | some f =>
    obtain ⟨t, r, howner, hrelation, rfl⟩ := of_finding?_eq_some hfinding
    rw [Option.elim_some, Table.mem_impliedForeignKeys_note]
    refine or_congr_right ⟨?_, ?_⟩
    · rintro ⟨d, answer, hasked, htarget, hend, rfl⟩
      simp only [findingOf] at hasked
      split at hasked
      next hmany =>
        cases hasked
        have hleads : c.table? r.target = some u := by
          rw [← htable, ← name_of_table? htable, htarget]
          rfl
        exact ⟨t, r, ⟨howner, hrelation, hmany, hleads, hend⟩, rfl⟩
      · cases hasked
    · rintro ⟨t', r', h, rfl⟩
      rw [h.table, Option.some.injEq] at howner
      subst howner
      rw [h.relation, Option.some.injEq] at hrelation
      subst hrelation
      exact ⟨t'.demand r', _, if_pos h.toMany, name_of_table? h.target, h.noEnd, rfl⟩

/-- What classifying relations one after the other implies, and what is asked for then. -/
theorem mem_impliedForeignKeys_classifyAll (positions : List (String × Nat)) {u' : Table}
    (htable : c.table? name = some u)
    (htable' : (c.classifyAll positions).1.table? name = some u') :
    (key ∈ u'.impliedForeignKeys ↔
        key ∈ u.impliedForeignKeys ∨ ∃ position ∈ positions, c.Asks position u key) ∧
      ∀ position, (c.classifyAll positions).1.Asks position u' key ↔ c.Asks position u key := by
  induction positions generalizing c u with
  | nil =>
    rw [show (c.classifyAll []).1 = c from rfl, htable, Option.some.injEq] at htable'
    subst htable'
    exact ⟨by simp, fun _ => Iff.rfl⟩
  | cons first rest ih =>
    obtain ⟨himplied, hasks⟩ := ih (table?_noted htable first) htable'
    refine ⟨?_, fun position => (hasks position).trans (asks_classifyAt htable)⟩
    rw [himplied, mem_impliedForeignKeys_noted htable, or_assoc]
    simp only [asks_classifyAt htable, List.mem_cons, exists_eq_or_imp]

/-- **In the end the foreign keys that are implied in a table are those of the relations to many of
its items that have no other end there.** -/
theorem mem_impliedForeignKeys_iff (hnodup : c.tableNames.Nodup) (hnone : c.ImpliesNothing)
    (hu : u ∈ c.classify.1.tables) :
    key ∈ u.impliedForeignKeys ↔ ∃ t ∈ c.classify.1.tables, ∃ r ∈ t.relations,
      r.toMany = true ∧ r.target = u.name ∧ u.otherEnd? (t.demand r) = none ∧
        t.defaultForeignKey r = key := by
  have htable := table?_of_mem_classify hnodup hu
  obtain ⟨u₀, hu₀, hkin⟩ := (kin_classify c).tables u hu
  have hbefore := (table?_eq_some_iff hnodup).2 ⟨hu₀, hkin.name.symm⟩
  obtain ⟨himplied, hasks⟩ : (key ∈ u.impliedForeignKeys ↔ _) ∧ _ :=
    mem_impliedForeignKeys_classifyAll c.relationPositions hbefore htable
  rw [himplied, hnone u₀ hu₀]
  simp only [List.not_mem_nil, false_or, ← hasks]
  constructor
  · rintro ⟨position, -, t, r, h, rfl⟩
    exact ⟨t, (mem_of_table? h.table).1, r, List.mem_of_getElem? h.relation, h.toMany,
      (name_of_table? h.target).symm, Option.isNone_iff_eq_none.1 h.noEnd, rfl⟩
  · rintro ⟨t, ht, r, hr, hmany, htarget, hend, rfl⟩
    obtain ⟨i, hrelation⟩ := List.getElem?_of_mem hr
    exact ⟨(t.name, i), mem_relationPositions ht hrelation, t, r,
      ⟨table?_of_mem_classify hnodup ht, hrelation, hmany, htarget ▸ htable,
        Option.isNone_iff_eq_none.2 hend⟩, rfl⟩

end Catalog

end SchemaLoom
