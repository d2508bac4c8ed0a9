/-
What is noted of a relation, as it shows in a table.

Classification finds out about one relation at a time and notes the finding in all tables
(`Table.note`): the kind in the table of the relation, its foreign key there too, and in the
table that it leads to what the relation asks for.  Each part of a table that indexes depend on
is followed through a note here: the implied indexes, the foreign keys and the other end of a
relation.

An implied index is new only if the relation found out about has no other end, and then it is
partitioned by the key that this relation asks for (`mem_impliedIndexes_note`).  A foreign key
is what was found out last about its field (`lookup_note`).  The other end of a relation stays
what it was, apart from its kind, unless the finding is about a relation of the same owner and
name; then the end takes the foreign key over, if it is given one (`unkinded_otherEnd?_note_self`).
-/
import SchemaLoom.Proofs.Catalog.Naming
import SchemaLoom.Proofs.Catalog.Settling

namespace SchemaLoom.Table

/-! ### Implied indexes

Only what a relation asks for can imply an index, and only in the table that it leads to.  The
other parts of a note leave implied indexes alone, and whether there is another end does not
depend on them either.
-/

/-- The other end of `d` is missing in `t` just if it is missing in a table whose relations have the
same ends. -/
theorem isNone_otherEnd?_congr {t t' : Table}
    (h : t.relations.map Relation.ends = t'.relations.map Relation.ends) (d : Demand) :
    (t.otherEnd? d).isNone = (t'.otherEnd? d).isNone := by
  have hsome : (t.otherEnd? d).isSome = (t'.otherEnd? d).isSome :=
    isSome_find?_congr h
      (fun e => d.name.any fun name =>
        e.2.2.2 = some name && e.2.1 = d.owner && e.2.2.1.isList == false) fun _ => rfl
  rw [← Option.not_isSome, ← Option.not_isSome, hsome]

theorem impliedIndexes_addImpliedForeignKey (t : Table) (key : String) :
    (t.addImpliedForeignKey key).impliedIndexes = t.impliedIndexes := by
  unfold addImpliedForeignKey
  split <;> rfl

theorem mem_impliedIndexes_answer {t : Table} {d : Demand} {i : Index}
    (h : i ∈ (t.answer d).impliedIndexes) :
    i ∈ t.impliedIndexes ∨
      (t.otherEnd? d).isNone = true ∧ d.name = some i.name ∧ i.partition = d.ownKey := by
  have hkey := impliedIndexes_addImpliedForeignKey t d.ownKey
  unfold answer at h
  cases hend : t.otherEnd? d with
  | some e =>
    rw [hend] at h
    exact Or.inl h
  | none =>
    cases hname : d.name with
    | none =>
      simp only [hend, hname, hkey] at h
      exact Or.inl h
    | some name =>
      simp only [hend, hname, addImpliedIndex, hkey] at h
      split at h
      · exact Or.inl (hkey ▸ h)
      · rcases List.mem_append.1 h with hold | hnew
        · exact Or.inl hold
        · rw [List.mem_singleton.1 hnew]
          exact Or.inr ⟨rfl, rfl, rfl⟩

/-- What is implied stays so, and a relation without another end has an index. -/
theorem impliedIndexes_answer (t : Table) (d : Demand) :
    (∀ i ∈ t.impliedIndexes, i ∈ (t.answer d).impliedIndexes) ∧
      ∀ name, d.name = some name → (t.otherEnd? d).isNone = true →
        ∃ i ∈ (t.answer d).impliedIndexes, i.name = name := by
  have hkey := impliedIndexes_addImpliedForeignKey t d.ownKey
  unfold answer
  cases hend : t.otherEnd? d with
  | some e => exact ⟨fun _ hi => hi, fun _ _ hnone => nomatch hnone⟩
  | none =>
    cases hname : d.name with
    | none => exact ⟨fun _ hi => hkey ▸ hi, fun _ hsome => nomatch hsome⟩
    | some name =>
      simp only [addImpliedIndex, hkey]
      split
      next hthere =>
        refine ⟨fun _ hi => hkey ▸ hi, fun other hsame _ => ?_⟩
        cases hsame
        rw [hkey]
        simpa using hthere
      · refine ⟨fun _ hi => List.mem_append_left _ hi, fun other hsame _ => ?_⟩
        cases hsame
        exact ⟨_, List.mem_append_right _ (List.mem_singleton.2 rfl), rfl⟩

theorem impliedIndexes_noteKind (t : Table) (f : Finding) :
    (t.noteKind f).impliedIndexes = t.impliedIndexes := by
  unfold noteKind
  split
  · cases f.key <;> rfl
  · rfl

theorem impliedIndexes_noteKey (t : Table) (f : Finding) :
    (t.noteKey f).impliedIndexes = t.impliedIndexes := by
  unfold noteKey
  split
  · split <;> rfl
  · rfl

theorem isNone_otherEnd?_noteKind (t : Table) (f : Finding) (d : Demand) :
    ((t.noteKind f).otherEnd? d).isNone = (t.otherEnd? d).isNone :=
  isNone_otherEnd?_congr (kin_noteKind t f).relations d

/-- An index that is implied when a finding is noted was implied before, or is implied by the
relation that was found out about. -/
theorem mem_impliedIndexes_note {t : Table} {f : Finding} {i : Index}
    (h : i ∈ (t.note f).impliedIndexes) :
    i ∈ t.impliedIndexes ∨ ∃ d key, f.demand = some (d, key) ∧ t.name = d.target ∧
      (t.otherEnd? d).isNone = true ∧ d.name = some i.name ∧ i.partition = d.ownKey := by
  rw [note, impliedIndexes_noteKey] at h
  unfold noteDemand at h
  cases hasked : f.demand with
  | none =>
    rw [hasked, impliedIndexes_noteKind] at h
    exact Or.inl h
  | some asked =>
    obtain ⟨d, key⟩ := asked
    simp only [hasked, name_noteKind] at h
    split at h
    next htarget =>
      rcases mem_impliedIndexes_answer h with hold | ⟨hend, hname, hpartition⟩
      · rw [impliedIndexes_noteKind] at hold
        exact Or.inl hold
      · rw [isNone_otherEnd?_noteKind] at hend
        exact Or.inr ⟨d, key, rfl, htarget, hend, hname, hpartition⟩
    · rw [impliedIndexes_noteKind] at h
      exact Or.inl h

theorem impliedIndexes_note_of_mem {t : Table} {i : Index} (h : i ∈ t.impliedIndexes)
    (f : Finding) : i ∈ (t.note f).impliedIndexes := by
  rw [note, impliedIndexes_noteKey]
  unfold noteDemand
  rw [← impliedIndexes_noteKind t f] at h
  split
  · split
    · exact (impliedIndexes_answer _ _).1 i h
    · exact h
  · exact h

/-- A relation without another end implies an index of its name. -/
theorem exists_impliedIndex_note {t : Table} {f : Finding} {d : Demand} {key name : String}
    (hasked : f.demand = some (d, key)) (htarget : t.name = d.target) (hname : d.name = some name)
    (hend : (t.otherEnd? d).isNone = true) : ∃ i ∈ (t.note f).impliedIndexes, i.name = name := by
  rw [note, impliedIndexes_noteKey]
  unfold noteDemand
  simp only [hasked, name_noteKind, if_pos htarget]
  exact (impliedIndexes_answer _ d).2 name hname (by rwa [isNone_otherEnd?_noteKind])

/-! ### Foreign keys

The foreign key of a field is noted with the finding about its relation (`lookup_note`), and no
other part of a note touches it.
-/

theorem lookup_setEntry {α : Type} (field other : String) (value : α)
    (entries : List (String × α)) :
    (setEntry field value entries).lookup other
      = if other = field then some value else entries.lookup other := by
  unfold setEntry
  rw [List.lookup_cons]
  by_cases hsame : other = field
  · simp [hsame]
  · have hbeq : (other == field) = false := by simpa using hsame
    rw [hbeq, if_neg hsame]
    induction entries with
    | nil => rfl
    | cons e entries ih =>
      by_cases hfield : e.1 = field
      · have hother : (other == e.1) = false := by simpa [hfield] using hsame
        rw [List.filter_cons_of_neg (by simpa using hfield), List.lookup_cons, hother]
        exact ih
      · rw [List.filter_cons_of_pos (by simpa using hfield), List.lookup_cons, List.lookup_cons]
        cases other == e.1 with
        | true => rfl
        | false => exact ih

theorem foreignKeys_noteKind (t : Table) (f : Finding) :
    (t.noteKind f).foreignKeys = t.foreignKeys := by
  unfold noteKind
  split
  · cases f.key <;> rfl
  · rfl

theorem foreignKeys_noteDemand (t : Table) (f : Finding) :
    (t.noteDemand f).foreignKeys = t.foreignKeys := by
  have hanswer : ∀ (t : Table) (d : Demand), (t.answer d).foreignKeys = t.foreignKeys := by
    intro t d
    have hsame := congrArg Table.foreignKeys (withoutImplied_answer t d)
    exact hsame
  unfold noteDemand
  split
  · split
    · exact hanswer _ _
    · rfl
  · rfl

/-- The foreign key of a field is what was found out about its relation last. -/
theorem lookup_note (t : Table) (f : Finding) (field : String) :
    (t.note f).foreignKeys.lookup field =
      match f.demand with
      | some (_, key) =>
        if t.name = f.owner ∧ field = f.field then some key else t.foreignKeys.lookup field
      | none => t.foreignKeys.lookup field := by
  have hbefore : ((t.noteKind f).noteDemand f).foreignKeys = t.foreignKeys := by
    rw [foreignKeys_noteDemand, foreignKeys_noteKind]
  unfold note noteKey
  cases f.demand with
  | none => exact congrArg (List.lookup field) hbefore
  | some asked =>
    simp only [name_noteDemand, name_noteKind]
    by_cases howner : t.name = f.owner
    · rw [if_pos howner]
      simp only [setForeignKey, lookup_setEntry, hbefore, howner, true_and]
    · rw [if_neg howner, if_neg fun h => howner h.1, hbefore]

/-! ### Ends

The end that a demand leads to is found by name and owner, neither of which a note changes.  What
a note may change of it are its kind and its foreign key, and the kind is left out by comparing
ends without their kinds (`Relation.unkinded`).
-/

theorem unkinded_otherEnd?_noteKind (t : Table) (f : Finding) (d : Demand) :
    ((t.noteKind f).otherEnd? d).map Relation.unkinded = (t.otherEnd? d).map Relation.unkinded := by
  rw [map_unkinded_otherEnd?, map_unkinded_otherEnd?, map_unkinded_noteKind]

/-- What the end of a relation becomes when a finding is noted, apart from its kind. -/
theorem unkinded_otherEnd?_note {t : Table} {f : Finding} {d : Demand}
    (h : ∀ asked ∈ f.demand, t.name = asked.1.target → asked.1.IsApart d) :
    ((t.note f).otherEnd? d).map Relation.unkinded = (t.otherEnd? d).map Relation.unkinded := by
  have hkey : (t.note f).otherEnd? d = ((t.noteKind f).noteDemand f).otherEnd? d := by
    rw [otherEnd?, note, relations_noteKey]
    rfl
  rw [hkey, ← unkinded_otherEnd?_noteKind t f]
  unfold noteDemand
  cases hasked : f.demand with
  | none => rfl
  | some asked =>
    simp only [name_noteKind]
    split
    next htarget => rw [otherEnd?_answer (h asked hasked htarget)]
    · rfl

/-- What the end of a relation becomes when the finding about the relation is noted. -/
theorem unkinded_otherEnd?_note_self {t : Table} {f : Finding} {d : Demand} {key : String}
    (hasked : f.demand = some (d, key)) (htarget : t.name = d.target) :
    ((t.note f).otherEnd? d).map Relation.unkinded
      = (t.otherEnd? d).map fun e => (e.adopt d.foreignKey).unkinded := by
  have hkey :
      (t.note f).otherEnd? d = ((t.noteKind f).otherEnd? d).map (Relation.adopt d.foreignKey) := by
    rw [otherEnd?, note, relations_noteKey]
    unfold noteDemand
    simp only [hasked, name_noteKind, if_pos htarget, relations_answer]
    exact find?_adoptFirst (isMetBy_adopt d d.foreignKey) _
  have hadopt : Relation.unkinded ∘ Relation.adopt d.foreignKey
      = Relation.adopt d.foreignKey ∘ Relation.unkinded := rfl
  rw [hkey, Option.map_map, hadopt, ← Option.map_map, unkinded_otherEnd?_noteKind, Option.map_map]
  rfl

/-! ### Keys that are given

A key that is noted is never the empty text, so what is found out about a relation to many items
is what `Table.foreignKey` answers for it afterwards.
-/

/-- The end of a relation depends on its table and its name only. -/
theorem otherEnd?_of_same {d d' : Demand} (hname : d.name = d'.name) (howner : d.owner = d'.owner)
    (t : Table) : t.otherEnd? d = t.otherEnd? d' := by
  have hmet : d.isMetBy = d'.isMetBy := by
    funext e
    rw [Demand.isMetBy, Demand.isMetBy, howner, hname]
  rw [otherEnd?, otherEnd?, hmet]

theorem getD_present_ne {name : Option String} {other : String} (h : other ≠ "") :
    (present name).getD other ≠ "" := by
  cases hname : present name with
  | none => exact h
  | some text =>
    have htext := (Option.filter_eq_some_iff.1 hname).2
    simpa using htext

theorem ownKey_ne (d : Demand) : d.ownKey ≠ "" :=
  getD_present_ne (by simp)

theorem foreignKey_ne_of_toOne (t : Table) {r : Relation} (hone : r.toMany = false) :
    t.foreignKey r ≠ "" := by
  rw [foreignKey_of_toOne t hone]
  exact getD_present_ne (by simp)

/-- What was found out is the foreign key of a relation to many items. -/
theorem foreignKey_of_lookup {t : Table} {r : Relation} (hmany : r.toMany = true) {key : String}
    (hlookup : t.foreignKeys.lookup r.field = some key) (hkey : key ≠ "") :
    t.foreignKey r = key := by
  simp [foreignKey, hmany, hlookup, present, Option.filter, hkey]

end SchemaLoom.Table
