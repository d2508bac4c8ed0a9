/-
Classifying relations again.

Once relations are classified, each is of the kind that the catalog says it is, other ends have
taken over what there was to take over, and what is implied is there (`Settled`).  Classifying
them again leaves all of that as it is: only what tables note beside their relations is noted
anew (`keeps_classify`).

A relation to many then notes the foreign key that its other end has in the end, which is what it
noted the first time unless it was overtaken.  So the second run finds the same as the first
exactly if no relation was overtaken (`findsTheSame_iff`).

Tables are compared without their notes (`Table.withoutNotes`) as long as the run goes on; notes
are looked at in the end only, where the last relation to many on a field decides.
-/
import SchemaLoom.Proofs.Catalog.RelationIndex
import SchemaLoom.Proofs.Catalog.SharedKey

namespace SchemaLoom

/-! ### Answers that change nothing

A demand that found its end before finds it again, and the key that the end took over is the one
that it would take over now.
-/

namespace Table

variable {t t' : Table} {d : Demand} {e r : Relation} {i : Nat}

theorem adoptFirst_of_find? {isChosen : Relation → Bool} {key : Option String} {rs : List Relation}
    (hfound : rs.find? isChosen = some e) (hhas : e.adopt key = e) :
    adoptFirst isChosen key rs = rs := by
  induction rs with
  | nil => rfl
  | cons r rs ih =>
    by_cases hchosen : isChosen r = true
    · rw [List.find?_cons_of_pos hchosen, Option.some.injEq] at hfound
      rw [adoptFirst, if_pos hchosen, hfound, hhas]
    · rw [List.find?_cons_of_neg hchosen] at hfound
      rw [adoptFirst, if_neg hchosen, ih hfound]

/-- A table whose end of a relation has a foreign key is not changed by another one. -/
theorem answer_of_end (hend : t.otherEnd? d = some e)
    (hhas : d.foreignKey.isSome = true → e.foreignKey.isSome = true) : t.answer d = t := by
  have hadopt : e.adopt d.foreignKey = e := by
    unfold Relation.adopt
    cases hgiven : e.foreignKey with
    | some key => rw [Option.some_or, ← hgiven]
    | none =>
      rw [hgiven] at hhas
      rw [Option.not_isSome_iff_eq_none.1 fun h => absurd (hhas h) (by simp), Option.or_none,
        ← hgiven]
  unfold answer
  simp only [hend, takeOver, adoptFirst_of_find? hend hadopt]

/-- A table that implies what a relation without another end asks for is not changed by it. -/
theorem answer_of_implied (hend : t.otherEnd? d = none) (hkey : d.ownKey ∈ t.impliedForeignKeys)
    (hindex : ∀ name, d.name = some name → ∃ i ∈ t.impliedIndexes, i.name = name) :
    t.answer d = t := by
  have himplied : t.addImpliedForeignKey d.ownKey = t := if_pos (List.contains_iff_mem.2 hkey)
  unfold answer
  rw [hend]
  dsimp only
  rw [himplied]
  cases hname : d.name with
  | none => rfl
  | some name =>
    refine if_pos (List.any_eq_true.2 ?_)
    obtain ⟨i, hi, hsame⟩ := hindex name hname
    exact ⟨i, hi, by simpa using hsame⟩

/-! ### Tables without what is noted

The second run notes the same once more.  So two runs are compared on tables without what is noted
beside their relations, which is then put back.
-/

/-- A table without what is noted beside its relations. -/
def withoutNotes (t : Table) : Table := { t with foreignKeys := [], targetKeys := [] }

theorem withoutNotes_addImpliedForeignKey (t : Table) (key : String) :
    (t.addImpliedForeignKey key).withoutNotes = t.withoutNotes.addImpliedForeignKey key := by
  unfold addImpliedForeignKey
  by_cases hthere : t.impliedForeignKeys.contains key = true
  · rw [if_pos hthere, if_pos (by exact hthere)]
  · rw [if_neg hthere, if_neg (by exact hthere)]
    rfl

theorem withoutNotes_addImpliedIndex (t : Table) (i : Index) :
    (t.addImpliedIndex i).withoutNotes = t.withoutNotes.addImpliedIndex i := by
  unfold addImpliedIndex
  by_cases hthere : (t.impliedIndexes.any fun other => other.name = i.name) = true
  · rw [if_pos hthere, if_pos (by exact hthere)]
  · rw [if_neg hthere, if_neg (by exact hthere)]
    rfl

theorem withoutNotes_answer (t : Table) (d : Demand) :
    (t.answer d).withoutNotes = t.withoutNotes.answer d := by
  have hend : t.withoutNotes.otherEnd? d = t.otherEnd? d := rfl
  unfold answer
  rw [hend]
  cases t.otherEnd? d with
  | some e => rfl
  | none =>
    dsimp only
    rw [← withoutNotes_addImpliedForeignKey]
    cases d.name with
    | none => rfl
    | some name => exact withoutNotes_addImpliedIndex _ _

/-- What a table has apart from what is noted is the same in tables that differ in nothing else. -/
theorem congr_withoutNotes (h : t.withoutNotes = t'.withoutNotes) {α : Type} (own : Table → α)
    (hown : ∀ t, own t.withoutNotes = own t) : own t = own t' := by
  rw [← hown t, ← hown t', h]

theorem withoutNotes_noteKind {f : Finding}
    (hkind : t.name = f.owner → t.setKind f.position f.kind = t) :
    (t.noteKind f).withoutNotes = t.withoutNotes := by
  unfold noteKind
  by_cases howner : t.name = f.owner
  · rw [if_pos howner, hkind howner]
    cases f.key <;> rfl
  · rw [if_neg howner]

theorem withoutNotes_noteKey (t : Table) (f : Finding) :
    (t.noteKey f).withoutNotes = t.withoutNotes := by
  unfold noteKey
  split
  · split <;> rfl
  · rfl

/-- A finding that is no news is noted beside relations only. -/
theorem withoutNotes_note {f : Finding}
    (hkind : t.name = f.owner → t.setKind f.position f.kind = t)
    (hanswer : ∀ asked ∈ f.demand, t.name = asked.1.target →
      t.withoutNotes.answer asked.1 = t.withoutNotes) :
    (t.note f).withoutNotes = t.withoutNotes := by
  have hbefore := withoutNotes_noteKind hkind
  rw [note, withoutNotes_noteKey, noteDemand]
  cases hasked : f.demand with
  | none => exact hbefore
  | some asked =>
    simp only [name_noteKind]
    by_cases htarget : t.name = asked.1.target
    · rw [if_pos htarget, withoutNotes_answer, hbefore, hanswer asked hasked htarget]
    · rw [if_neg htarget, hbefore]

/-- A relation of a kind stays as it is when the kind is noted. -/
theorem setKind_of_kind {kind : RelationKind} (hrelation : t.relations[i]? = some r)
    (hkind : r.kind = some kind) : t.setKind i kind = t := by
  have hsame : (t.relations.modify i fun r => { r with kind := some kind }) = t.relations := by
    refine List.ext_getElem? fun j => ?_
    rw [List.getElem?_modify]
    by_cases hhere : i = j
    · subst hhere
      simp [hrelation, ← hkind]
    · simp [hhere]
  rw [setKind, hsame]

/-- Classification comes to the same for `t` and `t'`: their relations, what is behind them, and the
indexes. -/
structure FindsTheSame (t t' : Table) : Prop where
  relations : t'.relations = t.relations
  foreignKeys : ∀ r ∈ t.relations, t'.foreignKey r = t.foreignKey r
  impliedForeignKeys : t'.impliedForeignKeys = t.impliedForeignKeys
  impliedIndexes : t'.impliedIndexes = t.impliedIndexes
  secondaryIndexes : t'.secondaryIndexes = t.secondaryIndexes

/-- What is noted makes a difference to foreign keys only, and by them to indexes. -/
theorem FindsTheSame.of_foreignKeys (h : t'.withoutNotes = t.withoutNotes) (hnamed : t.EndsAreNamed)
    (hkeys : ∀ r ∈ t.relations, t'.foreignKey r = t.foreignKey r) : t.FindsTheSame t' := by
  have hends := congr_withoutNotes h (·.relationsOf .belongsTo) fun _ => rfl
  have hnamed' : t'.EndsAreNamed := fun r hr => hnamed r (hends ▸ hr)
  have hindexes : (t.relationsOf .belongsTo).filterMap t'.endIndex?
      = (t.relationsOf .belongsTo).filterMap t.endIndex? := by
    refine List.filterMap_congr fun r hr => ?_
    rw [endIndex?, endIndex?, hkeys r (List.mem_filter.1 hr).1]
  refine ⟨congr_withoutNotes h (·.relations) fun _ => rfl, hkeys,
    congr_withoutNotes h (·.impliedForeignKeys) fun _ => rfl,
    congr_withoutNotes h (·.impliedIndexes) fun _ => rfl, ?_⟩
  have htenancy := congr_withoutNotes h (fun t => t.tenancy.map t.tenancyIndex) fun _ => rfl
  rw [secondaryIndexes_eq hnamed, secondaryIndexes_eq hnamed', allIndexes, allIndexes,
    congr_withoutNotes h (·.secondaryKeys) fun _ => rfl, hends, hindexes,
    congr_withoutNotes h (·.impliedIndexes) fun _ => rfl, htenancy]

end Table

namespace Catalog

variable {c c' : Catalog} {name : String} {t u : Table} {r e : Relation} {i : Nat}

/-! ### Settled catalogs

A catalog is settled if classifying a relation of it finds out nothing new (`Settled`).  The
tables of a settled catalog stay what they are, but for what is noted beside their relations
(`Keeps`).
-/

/-- Classifying the relations of `c` finds out nothing that is not there. -/
structure Settled (c : Catalog) : Prop where
  kinds : ∀ t r, c.table? t.name = some t → r ∈ t.relations → r.kind = some (c.kindOf t r)
  /-- What relations to many ask for is there. -/
  answers : ∀ t r u, c.table? t.name = some t → r ∈ t.relations → r.toMany = true →
    c.table? r.target = some u → u.withoutNotes.answer (t.demand r) = u.withoutNotes

/-- The tables of `c` and `c'` differ in nothing but what is noted beside relations. -/
def Keeps (c c' : Catalog) : Prop :=
  ∀ name, (c'.table? name).map (·.withoutNotes) = (c.table? name).map (·.withoutNotes)

theorem Keeps.exists_before (h : c.Keeps c') (htable : c'.table? name = some t) :
    ∃ t₀, c.table? name = some t₀ ∧ t₀.withoutNotes = t.withoutNotes := by
  have hsame := h name
  rwa [htable, Option.map_some, eq_comm, Option.map_eq_some_iff] at hsame

theorem Keeps.ends (h : c.Keeps c') (name : String) :
    Option.Rel (fun u u' : Table => u.relations.map Relation.ends = u'.relations.map Relation.ends)
      (c.table? name) (c'.table? name) := by
  cases htable : c'.table? name with
  | none =>
    have hsame := h name
    rw [htable, Option.map_none, eq_comm, Option.map_eq_none_iff] at hsame
    rw [hsame]
    exact .none
  | some t =>
    obtain ⟨t₀, hbefore, hsame⟩ := h.exists_before htable
    rw [hbefore]
    exact .some (by rw [Table.congr_withoutNotes hsame Table.relations fun _ => rfl])

/-- What is settled stays so when no more than notes change. -/
theorem Settled.of_keeps (h : c.Settled) (hkeeps : c.Keeps c') : c'.Settled := by
  have hbefore : ∀ t, c'.table? t.name = some t → ∃ t₀, c.table? t₀.name = some t₀ ∧
      t₀.name = t.name ∧ t₀.relations = t.relations := by
    intro t htable
    obtain ⟨t₀, hbefore, hsame⟩ := hkeeps.exists_before htable
    refine ⟨t₀, by rwa [name_of_table? hbefore], name_of_table? hbefore, ?_⟩
    exact Table.congr_withoutNotes hsame Table.relations fun _ => rfl
  constructor
  · intro t r htable hr
    obtain ⟨t₀, htable₀, hname, hrelations⟩ := hbefore t htable
    rw [h.kinds t₀ r htable₀ (hrelations ▸ hr), kindOf_congr hkeeps.ends hname rfl]
  · intro t r u htable hr hmany htarget
    obtain ⟨t₀, htable₀, hname, hrelations⟩ := hbefore t htable
    obtain ⟨u₀, htarget₀, hsame⟩ := hkeeps.exists_before htarget
    have hdemand : t.demand r = t₀.demand r := by rw [Table.demand, Table.demand, hname]
    rw [← hsame, hdemand]
    exact h.answers t₀ r u₀ htable₀ (hrelations ▸ hr) hmany htarget₀

/-- **Classifying a relation of a settled catalog changes no more than notes (`Catalog.Keeps`).** -/
theorem Settled.keeps_classifyAt (h : c.Settled) (position : String × Nat) :
    c.Keeps (c.classifyAt position).1 := by
  intro name
  rw [table?_classifyAt, Option.map_map]
  refine Option.map_congr fun x hx => ?_
  cases hfinding : c.finding? position with
  | none => rfl
  | some f =>
    obtain ⟨s, r, howner, hrelation, rfl⟩ := of_finding?_eq_some hfinding
    have hhere : c.table? s.name = some s := by rwa [name_of_table? howner]
    have hr : r ∈ s.relations := List.mem_of_getElem? hrelation
    rw [← name_of_table? hx] at hx
    refine Table.withoutNotes_note ?_ ?_
    · intro hname
      rw [show x.name = s.name from hname, hhere, Option.some.injEq] at hx
      subst hx
      exact Table.setKind_of_kind hrelation (h.kinds s r hhere hr)
    · intro asked hasked htarget
      by_cases hmany : r.toMany = true
      · rw [show (c.findingOf s position.2 r).demand = some (s.demand r, _) from if_pos hmany,
          Option.mem_some_iff] at hasked
        subst hasked
        rw [show x.name = r.target from htarget] at hx
        exact h.answers s r x hhere hr hmany hx
      · rw [show (c.findingOf s position.2 r).demand = none from if_neg hmany] at hasked
        cases hasked

/-- **Classifying the relations of a settled catalog changes no more than notes.** -/
theorem Settled.keeps_classify (h : c.Settled) : c.Keeps c.classify.1 :=
  classifyAll_keeps (P := c.Keeps)
    (fun _ position hkeeps name =>
      ((h.of_keeps hkeeps).keeps_classifyAt position name).trans (hkeeps name))
    c.relationPositions fun _ => rfl

/-! ### The second run

The first run settles a catalog because of what was proved about its end: kinds are right, the
other end of a relation has a foreign key, and what has no other end is implied.  Being settled is
then the invariant of the second run.
-/

/-- **Classification settles a catalog** (`Catalog.Settled`). -/
theorem settled_classify (hnodup : c.tableNames.Nodup) : c.classify.1.Settled where
  kinds t r htable hr := kind_of_classify hnodup (mem_of_table? htable).1 hr
  answers t r u htable hr hmany htarget := by
    rw [← Table.withoutNotes_answer]
    refine congrArg Table.withoutNotes ?_
    obtain ⟨i, hrelation⟩ := List.getElem?_of_mem hr
    cases hend : u.otherEnd? (t.demand r) with
    | some e =>
      refine Table.answer_of_end hend fun hgiven => ?_
      obtain ⟨u₀, e₀, -, -, hkey⟩ :=
        exists_otherEnd?_before hnodup htable hrelation hmany htarget hend
      have hsaid : ((t.demand r).said t.relations).isSome = true :=
        Demand.isSome_said hr (Demand.isMadeBy_demand hmany) hgiven
      rw [← hkey, Option.isSome_or, hsaid, Bool.or_true]
    | none =>
      refine Table.answer_of_implied hend ?_ fun name hname => ?_
      · obtain ⟨u₀, htarget₀, -⟩ := exists_before hnodup htarget
        have hasksnow : c.classify.1.Asks (t.name, i) u (t.demand r).ownKey :=
          ⟨t, r, ⟨htable, hrelation, hmany, htarget, by rw [hend]; rfl⟩, rfl⟩
        have hasks : c.Asks (t.name, i) u₀ (t.demand r).ownKey :=
          ((mem_impliedForeignKeys_classifyAll c.relationPositions htarget₀ htarget).2 _).1 hasksnow
        have hplace := mem_relationPositions (mem_of_table? htable).1 hrelation
        exact (mem_impliedForeignKeys_classifyAll c.relationPositions htarget₀ htarget).1.2
          (Or.inr ⟨(t.name, i), hplace, hasks⟩)
      · have hnamesake : c.classify.1.IsNamesake name r.target (t.name, i) t r :=
          ⟨htable, hrelation, hmany, hname, rfl⟩
        exact hnamesake.isImplied_of_classify hnodup htarget hend

variable {t' : Table}

/-- Apart from what is noted, a table is the same after the second run. -/
theorem withoutNotes_again (hnodup : c.tableNames.Nodup)
    (htable : c.classify.1.table? name = some t)
    (hagain : c.classify.1.classify.1.table? name = some t') :
    t'.withoutNotes = t.withoutNotes := by
  have hsame := (settled_classify hnodup).keeps_classify name
  rw [htable, hagain, Option.map_some, Option.map_some, Option.some.injEq] at hsame
  exact hsame

theorem isLast_again (hnodup : c.tableNames.Nodup) (htable : c.classify.1.table? name = some t)
    (hagain : c.classify.1.classify.1.table? name = some t') (hlast : t.IsLast i r) :
    t'.IsLast i r := by
  have hsame := Table.congr_withoutNotes (withoutNotes_again hnodup htable hagain) Table.relations
    fun _ => rfl
  exact ⟨hsame ▸ hlast.relation, hlast.toMany, hsame ▸ hlast.last⟩

theorem demand_again (htable : c.classify.1.table? name = some t)
    (hagain : c.classify.1.classify.1.table? name = some t') (r : Relation) :
    t'.demand r = t.demand r := by
  rw [Table.demand, Table.demand, name_of_table? hagain, name_of_table? htable]

/-- The second time a relation to many notes the foreign key that its other end has. -/
theorem foreignKey_again (hnodup : c.tableNames.Nodup) (htable : c.classify.1.table? name = some t)
    (hagain : c.classify.1.classify.1.table? name = some t') (hlast : t.IsLast i r)
    (htarget : c.classify.1.table? r.target = some u) (hend : u.otherEnd? (t.demand r) = some e) :
    t'.foreignKey r = u.foreignKey e := by
  have hsame := withoutNotes_again hnodup htable hagain
  have hrelations := Table.congr_withoutNotes hsame Table.relations fun _ => rfl
  have hdemand := demand_again htable hagain r
  obtain ⟨u₀, e₀, -, -, hkey⟩ :=
    exists_otherEnd?_before hnodup htable hlast.relation hlast.toMany htarget hend
  -- What was said up to the turn of the relation has been taken over already.
  have htaken : e.foreignKey.or ((t.demand r).said (t.relations.take (i + 1))) = e.foreignKey := by
    cases hearly : (t.demand r).said (t.relations.take (i + 1)) with
    | none => exact Option.or_none
    | some key =>
      rw [← hkey, Demand.said_of_take hearly, Option.or_assoc, Option.some_or]
  rw [foreignKey_of_isLast (nodup_tableNames_classify hnodup) hagain
      (isLast_again hnodup htable hagain hlast), keyInTurn, hdemand, htarget, Option.bind_some,
    hend, Option.elim_some, hrelations, htaken,
    Table.foreignKey_of_end hend (name_of_table? htarget)]

/-- A relation without another end has its own foreign key both times. -/
theorem foreignKey_again_of_none (hnodup : c.tableNames.Nodup)
    (htable : c.classify.1.table? name = some t)
    (hagain : c.classify.1.classify.1.table? name = some t') (hlast : t.IsLast i r)
    (hend : (c.classify.1.table? r.target).bind (·.otherEnd? (t.demand r)) = none) :
    t'.foreignKey r = t.foreignKey r := by
  have hdemand := demand_again htable hagain r
  rw [foreignKey_of_isLast (nodup_tableNames_classify hnodup) hagain
      (isLast_again hnodup htable hagain hlast), keyInTurn, hdemand, hend,
    foreignKey_of_isLast hnodup htable hlast, keyInTurn, (otherEnd?_eq_none_iff hnodup _ _).1 hend]
  rfl

/-- A relation to many has one foreign key both times if no relation on its field was overtaken. -/
theorem foreignKey_again_of_not (hnodup : c.tableNames.Nodup)
    (htable : c.classify.1.table? name = some t)
    (hagain : c.classify.1.classify.1.table? name = some t') (hr : r ∈ t.relations)
    (hmany : r.toMany = true) (hnone : ∀ i s, t.IsLast i s → ¬ c.IsOvertaken t i s) :
    t'.foreignKey r = t.foreignKey r := by
  obtain ⟨i, hrelation⟩ := List.getElem?_of_mem hr
  obtain ⟨j, s, hlast, hfield⟩ := Table.exists_isLast hrelation hmany
  have hkey : t'.foreignKey s = t.foreignKey s := by
    cases hend : (c.classify.1.table? s.target).bind (·.otherEnd? (t.demand s)) with
    | none => exact foreignKey_again_of_none hnodup htable hagain hlast hend
    | some e =>
      obtain ⟨u, htarget, hother⟩ := Option.bind_eq_some_iff.1 hend
      rw [foreignKey_again hnodup htable hagain hlast htarget hother]
      exact ((foreignKey_eq_iff_not_isOvertaken hnodup htable hlast htarget hother).2
        (hnone j s hlast)).symm
  rw [foreignKey_of_field hnodup htable hlast hmany hfield.symm,
    foreignKey_of_field (nodup_tableNames_classify hnodup) hagain
      (isLast_again hnodup htable hagain hlast) hmany hfield.symm, hkey]

/-- What was overtaken has another end. -/
theorem exists_end_of_isOvertaken (hnodup : c.tableNames.Nodup) (h : c.IsOvertaken t i r) :
    ∃ u e, c.classify.1.table? r.target = some u ∧ u.otherEnd? (t.demand r) = some e := by
  obtain ⟨u₀, e₀, -, htarget₀, hend₀, -⟩ := h
  cases hend : (c.classify.1.table? r.target).bind (·.otherEnd? (t.demand r)) with
  | none =>
    rw [otherEnd?_eq_none_iff hnodup, htarget₀, Option.bind_some, hend₀] at hend
    cases hend
  | some e =>
    obtain ⟨u, htarget, hother⟩ := Option.bind_eq_some_iff.1 hend
    exact ⟨u, e, htarget, hother⟩

/-- Classification comes to the same in `c` and `c'`, table by table. -/
def FindsTheSame (c c' : Catalog) : Prop :=
  ∀ name, Option.Rel Table.FindsTheSame (c.table? name) (c'.table? name)

/-- **Classification comes to the same the second time exactly if no other end was overtaken**
(`Catalog.IsOvertaken`). -/
theorem findsTheSame_iff (hnodup : c.tableNames.Nodup) :
    c.classify.1.FindsTheSame c.classify.1.classify.1 ↔
      ∀ t ∈ c.classify.1.tables, ∀ i r, t.IsLast i r → ¬ c.IsOvertaken t i r := by
  constructor
  · intro hsame t ht i r hlast hovertaken
    have htable := table?_of_mem_classify hnodup ht
    obtain ⟨hnone, -⟩ | ⟨t, t', htable', hagain, hfinds⟩ := rel_cases (hsame t.name)
    · rw [htable] at hnone
      cases hnone
    rw [htable, Option.some.injEq] at htable'
    subst htable'
    obtain ⟨u, e, htarget, hend⟩ := exists_end_of_isOvertaken hnodup hovertaken
    have hkeys := hfinds.foreignKeys r (List.mem_of_getElem? hlast.relation)
    rw [foreignKey_again hnodup htable hagain hlast htarget hend, eq_comm] at hkeys
    exact (foreignKey_eq_iff_not_isOvertaken hnodup htable hlast htarget hend).1 hkeys hovertaken
  · intro hnone name
    have hkeeps := (settled_classify hnodup).keeps_classify name
    cases htable : c.classify.1.table? name with
    | none =>
      rw [htable, Option.map_none, Option.map_eq_none_iff] at hkeeps
      rw [hkeeps]
      exact .none
    | some t =>
      rw [htable, Option.map_some, Option.map_eq_some_iff] at hkeeps
      obtain ⟨t', hagain, hsame⟩ := hkeeps
      have ht := (mem_of_table? htable).1
      rw [hagain]
      refine .some (.of_foreignKeys hsame (endsAreNamed_of_classify hnodup ht) fun r hr => ?_)
      -- Foreign keys of relations to one item are what the relations say themselves.
      by_cases hmany : r.toMany = true
      · exact foreignKey_again_of_not hnodup htable hagain hr hmany (hnone t ht)
      · have hone : r.toMany = false := by simpa using hmany
        rw [Table.foreignKey_of_toOne t hone, Table.foreignKey_of_toOne t' hone,
          name_of_table? htable, name_of_table? hagain]

/-! ### Both ends, and the second run -/

/-- **Both ends of a named relation have one foreign key unless the other end was overtaken, and
classifying relations again comes to the same unless one was.**  Relations to many on one field
count as the last of them. -/
theorem sharedKeys_of_classify (hnodup : c.tableNames.Nodup) :
    (∀ t ∈ c.classify.1.tables, ∀ i r u e name, t.IsLast i r → present r.name = some name →
      c.classify.1.table? r.target = some u → u.reciprocal? name t.name false = some e →
      (t.foreignKey r = u.foreignKey e ↔ ¬ c.IsOvertaken t i r)) ∧
    (∀ t ∈ c.classify.1.tables, ∀ r ∈ t.relations, r.toMany = true →
      ∃ i s, t.IsLast i s ∧ s.field = r.field ∧ t.foreignKey r = t.foreignKey s) ∧
    (c.classify.1.FindsTheSame c.classify.1.classify.1 ↔
      ∀ t ∈ c.classify.1.tables, ∀ i r, t.IsLast i r → ¬ c.IsOvertaken t i r) := by
  refine ⟨?_, ?_, findsTheSame_iff hnodup⟩
  · intro t ht i r u e name hlast hname htarget hend
    have htable := table?_of_mem_classify hnodup ht
    rw [← Table.otherEnd?_demand hname] at hend
    exact foreignKey_eq_iff_not_isOvertaken hnodup htable hlast htarget hend
  · intro t ht r hr hmany
    have htable := table?_of_mem_classify hnodup ht
    obtain ⟨i, hrelation⟩ := List.getElem?_of_mem hr
    obtain ⟨j, s, hlast, hfield⟩ := Table.exists_isLast hrelation hmany
    exact ⟨j, s, hlast, hfield, foreignKey_of_field hnodup htable hlast hmany hfield.symm⟩

/-- Authors with drafts and posts of one relation; only the posts give a foreign key. -/
def draftsAndPosts : Sdl.Document :=
  ⟨[tableOf "Author" [
      ⟨none, "drafts", [], .list (.named "Post"),
        [⟨"connection", [("name", .string "Posts" false)]⟩]⟩,
      ⟨none, "posts", [], .list (.named "Post"),
        [⟨"connection", [("name", .string "Posts" false),
          ("foreignKey", .string "writerId" false)]⟩]⟩],
    tableOf "Post" [⟨none, "author", [], .named "Author",
      [⟨"connection", [("name", .string "Posts" false)]⟩]⟩]]⟩

/-- The drafts had their turn before the posts gave the foreign key: they are found by another one
than the author of a post is, until relations are classified again. -/
theorem draftsAndPosts_overtaken :
    ∃ c t r u e, collected draftsAndPosts "schema.graphql" none = .ok c ∧ c.tableNames.Nodup ∧
      t ∈ c.classify.1.tables ∧ r ∈ t.relations ∧ r.field = "drafts" ∧ u ∈ c.classify.1.tables ∧
      u.name = r.target ∧ u.reciprocal? "Posts" t.name false = some e ∧
      t.foreignKey r ≠ u.foreignKey e ∧ ¬ c.classify.1.FindsTheSame c.classify.1.classify.1 := by
  have hfacts : Outcome.Holds (collected draftsAndPosts "schema.graphql" none) fun c =>
      c.tableNames.Nodup ∧ ∃ t ∈ c.classify.1.tables, ∃ r ∈ t.relations[0]?,
        r.field = "drafts" ∧ r.toMany = true ∧ present r.name = some "Posts" ∧
        (∀ s ∈ t.relations.drop 1, s.field ≠ r.field) ∧
        (∃ u ∈ c.classify.1.tables, u.name = r.target ∧
          (u.reciprocal? "Posts" t.name false).isSome = true) ∧
        ∃ u ∈ c.tables, u.name = r.target ∧
          ∃ e ∈ u.otherEnd? (t.demand r), e.foreignKey = none ∧
            (t.demand r).said (t.relations.take 1) = none ∧
            ∃ key ∈ present ((t.demand r).said t.relations), key ≠ (t.demand r).keyOf none := by
    decide +kernel
  obtain ⟨c, hcollected, hnodup, t, ht, r, hrelation, hfield, hmany, hname, honly,
    ⟨u, hu, htarget, hend⟩, u₀, hu₀, htarget₀, e₀, hend₀, hnone, hsilent, key, hkey, hother⟩ :=
    hfacts
  have hnow := table?_of_mem_classify hnodup hu
  rw [htarget] at hnow
  obtain ⟨e, hend⟩ := Option.isSome_iff_exists.1 hend
  have hlast : t.IsLast 0 r := by
    refine ⟨hrelation, hmany, fun j s hs _ hsame => ?_⟩
    rcases j with _ | j
    · exact Nat.le_refl 0
    · have hlater : s ∈ t.relations.drop 1 :=
        List.mem_of_getElem? (i := j) (by rwa [List.getElem?_drop, Nat.add_comm])
      exact absurd hsame (honly s hlater)
  have hovertaken : c.IsOvertaken t 0 r :=
    ⟨u₀, e₀, key, (table?_eq_some_iff hnodup).2 ⟨hu₀, htarget₀⟩, hend₀, hnone, hsilent, hkey,
      hother⟩
  obtain ⟨hshared, -, hagain⟩ := sharedKeys_of_classify hnodup
  have hlaw := hshared t ht 0 r u e "Posts" hlast hname hnow hend
  exact ⟨c, t, r, u, e, hcollected, hnodup, ht, List.mem_of_getElem? hrelation, hfield, hu, htarget,
    hend, fun hsame => hlaw.1 hsame hovertaken,
    fun hsame => hagain.1 hsame t ht 0 r hlast hovertaken⟩

end Catalog

end SchemaLoom
