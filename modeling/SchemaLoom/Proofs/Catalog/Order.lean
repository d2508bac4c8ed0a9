/-
The order in which tables are classified.

What a relation asks of another table is noted there, so that tables are classified in the light
of those that went first.  Yet findings about relations of different tables do not meet: each
takes the foreign key that its own table asked for, and what is implied is a set.  So the
blocks of positions, one for each table, may come in any order.

`Reorders` says that of steps in general, of which some stand apart; here the states are
catalogs, told apart by `Table.Agrees`, and positions stand apart if their tables differ.  Two
facts are asked for: a finding rests on what steps apart from it leave alone (`Table.SameFor`),
and notes of different owners commute.

Only the order of implied indexes remains of it, and which of several of one name is kept.
-/
import SchemaLoom.Proofs.Catalog.NoteOrder

namespace SchemaLoom

/-! ### Blocks of steps

Two blocks change places step by step, so the induction is on one block within an induction on the
other.  A permutation of blocks is then a sequence of such changes.
-/

/-- Up to `Same`, steps respect states, and two steps that are `Apart` may be taken in either order.
-/
structure Reorders {σ π : Type} (Same : σ → σ → Prop) (step : σ → π → σ) (Apart : π → π → Prop) :
    Prop where
  equivalence : Equivalence Same
  respects {s s' : σ} (h : Same s s') (p : π) : Same (step s p) (step s' p)
  swaps (s : σ) {p q : π} (h : Apart p q) : Same (step (step s p) q) (step (step s q) p)

namespace Reorders

variable {σ π : Type} {Same : σ → σ → Prop} {step : σ → π → σ} {Apart : π → π → Prop}

theorem respects_all (h : Reorders Same step Apart) {s s' : σ} (hsame : Same s s') (ps : List π) :
    Same (ps.foldl step s) (ps.foldl step s') := by
  induction ps generalizing s s' with
  | nil => exact hsame
  | cons p ps ih => exact ih (h.respects hsame p)

/-- A step may be taken before steps that it stands apart from. -/
theorem swaps_step (h : Reorders Same step Apart) (s : σ) {ps : List π} {q : π}
    (hapart : ∀ p ∈ ps, Apart p q) :
    Same (step (ps.foldl step s) q) (ps.foldl step (step s q)) := by
  induction ps generalizing s with
  | nil => exact h.equivalence.refl _
  | cons p ps ih =>
    rw [List.forall_mem_cons] at hapart
    exact h.equivalence.trans (ih (step s p) hapart.2)
      (h.respects_all (h.swaps s hapart.1) ps)

/-- Two blocks that stand apart may change places. -/
theorem swaps_blocks (h : Reorders Same step Apart) (s : σ) {ps qs : List π}
    (hapart : ∀ p ∈ ps, ∀ q ∈ qs, Apart p q) :
    Same (qs.foldl step (ps.foldl step s)) (ps.foldl step (qs.foldl step s)) := by
  induction qs generalizing s with
  | nil => exact h.equivalence.refl _
  | cons q qs ih =>
    have hfirst : ∀ p ∈ ps, Apart p q := fun p hp => hapart p hp q List.mem_cons_self
    have hrest : ∀ p ∈ ps, ∀ r ∈ qs, Apart p r := fun p hp r hr =>
      hapart p hp r (List.mem_cons_of_mem q hr)
    exact h.equivalence.trans (h.respects_all (h.swaps_step s hfirst) qs) (ih (step s q) hrest)

/-- **Blocks of steps that stand apart may come in any order.** -/
theorem perm (h : Reorders Same step Apart) {blocks blocks' : List (List π)}
    (hperm : blocks.Perm blocks')
    (hapart : blocks.Pairwise fun ps qs => ∀ p ∈ ps, ∀ q ∈ qs, Apart p q)
    (hsymm : ∀ {p q}, Apart p q → Apart q p) (s : σ) :
    Same (blocks.flatten.foldl step s) (blocks'.flatten.foldl step s) := by
  induction hperm generalizing s with
  | nil => exact h.equivalence.refl _
  | cons ps _ ih =>
    simp only [List.flatten_cons, List.foldl_append]
    exact ih (List.pairwise_cons.1 hapart).2 _
  | swap ps qs rest =>
    simp only [List.flatten_cons, List.foldl_append]
    have hfirst := (List.pairwise_cons.1 hapart).1 ps List.mem_cons_self
    exact h.respects_all (h.swaps_blocks s hfirst) _
  | trans hfirst _ ih ih' =>
    have hnext := (hfirst.pairwise_iff fun hp q hq r hr => hsymm (hp r hr q hq)).1 hapart
    exact h.equivalence.trans (ih hapart s) (ih' hnext s)

end Reorders

/-! ### What findings rest on

What a relation says to other tables is its ends and, if it leads to many items, its foreign key
(`Relation.offer`).  A note leaves that alone: an end may take over a foreign key, but an end
leads to one item.
-/

/-- What a relation says to other tables. -/
def Relation.offer (r : Relation) : (String × String × Sdl.Shape × Option String) × Option String :=
  (r.ends, if r.toMany then r.foreignKey else none)

namespace Table

/-- Findings about the relations of `owner` cannot tell `t` from `t'`: the two have the same name,
the same keys and relations that say the same, and they answer `owner` with the same foreign keys.
-/
structure SameFor (owner : String) (t t' : Table) : Prop where
  name : t.name = t'.name
  keys : t.keys = t'.keys
  offers : t.relations.map Relation.offer = t'.relations.map Relation.offer
  answerKey : ∀ d : Demand, d.owner = owner → t.answerKey d = t'.answerKey d

theorem Agrees.sameFor {t t' : Table} (h : t.Agrees t') (owner : String) : t.SameFor owner t' where
  name := h.name
  keys := h.congr Table.keys fun _ => rfl
  offers := by rw [h.relations]
  answerKey d _ := answerKey_congr h.name (by rw [h.relations]) d

theorem offers_answer (t : Table) (d : Demand) :
    (t.answer d).relations.map Relation.offer = t.relations.map Relation.offer := by
  rw [relations_answer]
  refine map_adoptFirst (fun r hmet => ?_) t.relations
  obtain ⟨-, -, -, -, hone⟩ := Demand.isMetBy_iff.1 hmet
  have hone' : (r.adopt d.foreignKey).toMany = false := hone
  simp only [Relation.offer, hone, hone']
  rfl

theorem answerKey_answer {d d' : Demand} (hapart : d.IsApart d') (t : Table) :
    (t.answer d).answerKey d' = t.answerKey d' := by
  unfold answerKey
  rw [otherEnd?_answer hapart]
  cases hend : t.otherEnd? d' with
  | none => rfl
  | some e =>
    obtain ⟨-, -, -, -, -, hone⟩ := otherEnd?_eq_some hend
    rw [Option.elim_some, Option.elim_some, foreignKey_of_toOne _ (r := e.adopt _) hone,
      foreignKey_of_toOne _ (r := e.adopt _) hone, name_answer]

theorem offers_noteKind (t : Table) (f : Finding) :
    (t.noteKind f).relations.map Relation.offer = t.relations.map Relation.offer := by
  have hoffer : ∀ r : Relation, { r with kind := some f.kind }.offer = r.offer := fun _ => rfl
  unfold noteKind
  split
  · cases f.key <;> exact map_modify_of_eq hoffer f.position t.relations
  · rfl

theorem offers_noteDemand (t : Table) (f : Finding) :
    (t.noteDemand f).relations.map Relation.offer = t.relations.map Relation.offer := by
  unfold noteDemand
  split
  · split
    · exact offers_answer t _
    · rfl
  · rfl

theorem relations_noteKey (t : Table) (f : Finding) : (t.noteKey f).relations = t.relations := by
  unfold noteKey
  split
  · split <;> rfl
  · rfl

/-- What a relation says to other tables is not changed by what is found out. -/
theorem offers_note (t : Table) (f : Finding) :
    (t.note f).relations.map Relation.offer = t.relations.map Relation.offer := by
  rw [note, relations_noteKey, offers_noteDemand, offers_noteKind]

theorem sameFor_noteKind (t : Table) (f : Finding) (owner : String) :
    (t.noteKind f).SameFor owner t :=
  ⟨name_noteKind t f, (kin_noteKind t f).keys, offers_noteKind t f,
    fun d _ => answerKey_noteKind t f d⟩

theorem sameFor_noteDemand {f : Finding} {owner : String} (howner : f.owner ≠ owner) (t : Table) :
    (t.noteDemand f).SameFor owner t := by
  refine ⟨name_noteDemand t f, (kin_noteDemand t f).keys, offers_noteDemand t f, ?_⟩
  intro d hasks
  unfold noteDemand
  split
  next asked key hdemand =>
    split
    · have hapart : asked.IsApart d := by
        refine Or.inl ?_
        rw [f.owned _ hdemand, hasks]
        exact howner
      exact answerKey_answer hapart t
    · rfl
  · rfl

theorem sameFor_noteKey (t : Table) (f : Finding) (owner : String) :
    (t.noteKey f).SameFor owner t := by
  unfold noteKey
  split
  · split
    · refine ⟨rfl, rfl, rfl, fun d _ => ?_⟩
      refine answerKey_congr ?_ ?_ d <;> rfl
    · exact ⟨rfl, rfl, rfl, fun _ _ => rfl⟩
  · exact ⟨rfl, rfl, rfl, fun _ _ => rfl⟩

theorem SameFor.trans {owner : String} {t t' t'' : Table} (h : t.SameFor owner t')
    (h' : t'.SameFor owner t'') : t.SameFor owner t'' :=
  ⟨h.name.trans h'.name, h.keys.trans h'.keys, h.offers.trans h'.offers,
    fun d hd => (h.answerKey d hd).trans (h'.answerKey d hd)⟩

/-- **What is noted for one table makes no difference to the findings about another**
(`Table.SameFor`). -/
theorem sameFor_note {f : Finding} {owner : String} (howner : f.owner ≠ owner) (t : Table) :
    (t.note f).SameFor owner t :=
  (sameFor_noteKey _ f owner).trans
    ((sameFor_noteDemand howner _).trans (sameFor_noteKind t f owner))

theorem SameFor.ends {owner : String} {t t' : Table} (h : t.SameFor owner t') :
    t.relations.map Relation.ends = t'.relations.map Relation.ends := by
  have hends : ∀ t : Table, t.relations.map Relation.ends
      = (t.relations.map Relation.offer).map Prod.fst := by
    intro t
    rw [List.map_map]
    rfl
  rw [hends, hends, h.offers]

/-- A search among relations for a property that depends on their ends succeeds in both of two lists
with the same ends, or in neither. -/
theorem isSome_find?_congr {rs rs' : List Relation}
    (h : rs.map Relation.ends = rs'.map Relation.ends) {p : Relation → Bool}
    (q : String × String × Sdl.Shape × Option String → Bool) (hp : ∀ r, p r = q r.ends) :
    (rs.find? p).isSome = (rs'.find? p).isSome := by
  have hends : ∀ rs : List Relation, (rs.find? p).isSome = (rs.map Relation.ends).any q := by
    intro rs
    rw [List.any_map, Bool.eq_iff_iff, List.find?_isSome, List.any_eq_true]
    simp only [hp, Function.comp_apply]
  rw [hends, hends, h]

/-- Tables whose relations have the same ends both have an end that leads back, or neither has. -/
theorem isSome_reciprocal?_congr {t t' : Table}
    (h : t.relations.map Relation.ends = t'.relations.map Relation.ends)
    (name target : String) (toMany : Bool) :
    (t.reciprocal? name target toMany).isSome = (t'.reciprocal? name target toMany).isSome :=
  isSome_find?_congr h
    (fun e => e.2.2.2 = some name && e.2.1 = target && e.2.2.1.isList == toMany) fun _ => rfl

end Table

namespace Catalog

variable {c c' : Catalog}

theorem primaryKey_congr {owner target : String}
    (h : ∀ name, Option.Rel (Table.SameFor owner) (c.table? name) (c'.table? name)) :
    (c.table? target).map (·.primaryKey) = (c'.table? target).map (·.primaryKey) := by
  obtain ⟨hnone, hnone'⟩ | ⟨u, u', hsome, hsome', hsame⟩ := rel_cases (h target)
  · rw [hnone, hnone']
  · rw [hsome, hsome']
    simp only [Option.map_some, Table.primaryKey, hsame.keys]

/-- Relations that say the same are found to be of the same kind. -/
theorem kindOf_congr {t t' : Table} {r r' : Relation}
    (h : ∀ name, Option.Rel
      (fun u u' : Table => u.relations.map Relation.ends = u'.relations.map Relation.ends)
      (c.table? name) (c'.table? name))
    (hname : t.name = t'.name) (hends : r.ends = r'.ends) : c.kindOf t r = c'.kindOf t' r' := by
  simp only [Relation.ends, Prod.mk.injEq] at hends
  obtain ⟨-, htarget, hshape, hrelation⟩ := hends
  have hany : (c.table? r.target).any (fun u => t.belongsTo u r)
      = (c'.table? r'.target).any fun u => t'.belongsTo u r' := by
    rw [← htarget]
    obtain ⟨hnone, hnone'⟩ | ⟨u, u', hsome, hsome', hsame⟩ := rel_cases (h r.target)
    · rw [hnone, hnone']
      rfl
    · rw [hsome, hsome']
      simp only [Option.any_some, Table.belongsTo, hrelation, ← hname,
        Table.isSome_reciprocal?_congr hsame]
  unfold kindOf
  rw [hany, Relation.toMany, Relation.toMany, hshape]

/-- Relations to many items that say the same ask for the same. -/
theorem demand_of_offer {t t' : Table} {r r' : Relation} (hname : t.name = t'.name)
    (hoffer : r.offer = r'.offer) (hmany : r.toMany = true) : t.demand r = t'.demand r' := by
  simp only [Relation.offer, Relation.ends, Prod.mk.injEq] at hoffer
  obtain ⟨⟨-, htarget, hshape, hrelation⟩, hkey⟩ := hoffer
  have hmany' : r'.toMany = true := by rw [← hmany, Relation.toMany, Relation.toMany, hshape]
  rw [if_pos hmany, if_pos hmany'] at hkey
  simp only [Table.demand, hname, htarget, hrelation, hkey]

/-- What relations to many items ask for, and the foreign key that they get. -/
theorem demand_congr {t t' : Table} {r r' : Relation}
    (h : ∀ name, Option.Rel (Table.SameFor t.name) (c.table? name) (c'.table? name))
    (hname : t.name = t'.name) (hoffer : r.offer = r'.offer) (position : Nat) :
    (c.findingOf t position r).demand = (c'.findingOf t' position r').demand := by
  have htarget : r.target = r'.target := congrArg (·.1.2.1) hoffer
  have hmany : r.toMany = r'.toMany := congrArg (·.1.2.2.1.isList) hoffer
  simp only [findingOf]
  rw [← hmany]
  split
  next htomany =>
    rw [← demand_of_offer hname hoffer htomany, ← htarget]
    obtain ⟨hnone, hnone'⟩ | ⟨u, u', hsome, hsome', hsame⟩ := rel_cases (h r.target)
    · rw [hnone, hnone']
    · rw [hsome, hsome', Option.elim_some, Option.elim_some, hsame.answerKey (t.demand r) rfl]
  · rfl

/-- **Findings about the relations of a table are the same in catalogs whose tables are the same to
it.** -/
theorem finding?_congr {position : String × Nat}
    (h : ∀ name, Option.Rel (Table.SameFor position.1) (c.table? name) (c'.table? name)) :
    c.finding? position = c'.finding? position := by
  unfold finding?
  obtain ⟨hnone, hnone'⟩ | ⟨t, t', htable, htable', hsame⟩ := rel_cases (h position.1)
  · rw [hnone, hnone']
    rfl
  · rw [htable, htable']
    rw [← name_of_table? htable] at h
    have hoffer : (t.relations[position.2]?).map Relation.offer
        = (t'.relations[position.2]?).map Relation.offer := by
      rw [← List.getElem?_map, ← List.getElem?_map, hsame.offers]
    cases hrelation : t.relations[position.2]? with
    | none =>
      rw [hrelation, Option.map_none, eq_comm, Option.map_eq_none_iff] at hoffer
      simp [hrelation, hoffer]
    | some r =>
      rw [hrelation, Option.map_some, eq_comm, Option.map_eq_some_iff] at hoffer
      obtain ⟨r', hrelation', hoffers⟩ := hoffer
      have hends : r.ends = r'.ends := congrArg Prod.fst hoffers.symm
      have htarget : r.target = r'.target := congrArg (·.2.1) hends
      have hall : ∀ name, Option.Rel
          (fun u u' : Table => u.relations.map Relation.ends = u'.relations.map Relation.ends)
          (c.table? name) (c'.table? name) := fun name =>
        rel_imp (h name) fun _ _ hsame => hsame.ends
      simp only [hrelation, hrelation', Option.bind_eq_bind, Option.bind_some, Option.pure_def,
        Option.some.injEq]
      refine Finding.ext hsame.name rfl ?_ (kindOf_congr hall hsame.name hends) ?_
        (demand_congr h hsame.name hoffers.symm position.2)
      · exact congrArg Prod.fst hends
      · simp only [findingOf, ← htarget]
        exact primaryKey_congr h

/-! ### Classification in any order

The names of tables stay the same, so catalogs are compared by looking tables up.  That two of
them agree is an equivalence that every step respects.
-/

/-- The catalogs have tables of the same names, and tables of one name agree. -/
def Agrees (c c' : Catalog) : Prop :=
  ∀ name, Option.Rel Table.Agrees (c.table? name) (c'.table? name)

theorem equivalence_agrees : Equivalence Agrees where
  refl c name := by
    cases c.table? name with
    | none => exact .none
    | some t => exact .some (Table.Agrees.refl t)
  symm h name := by
    obtain ⟨hnone, hnone'⟩ | ⟨t, t', hsome, hsome', hsame⟩ := rel_cases (h name)
    · rw [hnone, hnone']
      exact .none
    · rw [hsome, hsome']
      exact .some hsame.symm
  trans h h' name := by
    obtain ⟨hnone, hnone'⟩ | ⟨t, t', hsome, hsome', hsame⟩ := rel_cases (h name)
    · rw [hnone, ← hnone']
      exact h' name
    · obtain ⟨habsent, -⟩ | ⟨u, u', hthere, hthere', hnext⟩ := rel_cases (h' name)
      · rw [hsome'] at habsent
        cases habsent
      · rw [hsome'] at hthere
        cases hthere
        rw [hsome, hthere']
        exact .some (hsame.trans hnext)

theorem owner_of_finding? {position : String × Nat} {f : Finding}
    (h : c.finding? position = some f) : f.owner = position.1 := by
  obtain ⟨t, r, htable, -, rfl⟩ := of_finding?_eq_some h
  exact name_of_table? htable

/-- Classifying a relation of one table makes no difference to findings about another. -/
theorem finding?_classifyAt {position other : String × Nat} (hapart : position.1 ≠ other.1) :
    (c.classifyAt position).1.finding? other = c.finding? other := by
  refine finding?_congr fun name => ?_
  rw [table?_classifyAt]
  cases c.table? name with
  | none => exact .none
  | some t =>
    rw [Option.map_some]
    cases hfinding : c.finding? position with
    | none => exact .some ((Table.Agrees.refl t).sameFor _)
    | some f =>
      have howner : f.owner ≠ other.1 := owner_of_finding? hfinding ▸ hapart
      exact .some (Table.sameFor_note howner t)

/-- **Relations of different tables may be classified in any order.** -/
theorem reorders_classifyAt :
    Reorders Agrees (fun c position => (c.classifyAt position).1) fun position other =>
      position.1 ≠ other.1 where
  equivalence := equivalence_agrees
  respects {c c'} h position := by
    intro name
    have hfinding : c.finding? position = c'.finding? position :=
      finding?_congr fun name => rel_imp (h name) fun _ _ hsame => hsame.sameFor _
    rw [table?_classifyAt, table?_classifyAt, hfinding]
    obtain ⟨hnone, hnone'⟩ | ⟨t, t', hsome, hsome', hsame⟩ := rel_cases (h name)
    · rw [hnone, hnone']
      exact .none
    · rw [hsome, hsome']
      refine .some ?_
      cases c'.finding? position with
      | none => exact hsame
      | some f => exact hsame.note f
  swaps c position other hapart := by
    intro name
    simp only [table?_classifyAt, finding?_classifyAt hapart, finding?_classifyAt hapart.symm,
      Option.map_map]
    cases c.table? name with
    | none => exact .none
    | some t =>
      refine .some ?_
      cases hfirst : c.finding? position with
      | none => exact Table.Agrees.refl _
      | some f =>
        cases hsecond : c.finding? other with
        | none => exact Table.Agrees.refl _
        | some f' =>
          have howner : f'.owner ≠ f.owner := by
            rw [owner_of_finding? hfirst, owner_of_finding? hsecond]
            exact hapart.symm
          exact Table.commute_note howner t

theorem classifyAll_eq_foldl (c : Catalog) (positions : List (String × Nat)) :
    (c.classifyAll positions).1 =
      positions.foldl (fun c position => (c.classifyAt position).1) c := by
  induction positions generalizing c with
  | nil => rfl
  | cons position rest ih => exact ih _

theorem table?_eq_some_iff (hnodup : c.tableNames.Nodup) {name : String} {t : Table} :
    c.table? name = some t ↔ t ∈ c.tables ∧ t.name = name :=
  find?_eq_some_iff_of_nodup hnodup

/-- **Tables may be classified in any order**: the tables of one name agree in the end
(`Catalog.Agrees`). -/
theorem agrees_classify (hnodup : c.tableNames.Nodup) (hperm : c.tables.Perm c'.tables) :
    c.classify.1.Agrees c'.classify.1 := by
  have hstart : c.Agrees c' := by
    intro name
    have hsame : c.table? name = c'.table? name := find?_of_perm hnodup hperm name
    rw [hsame]
    exact equivalence_agrees.refl c' name
  have hblocks : ∀ c : Catalog, c.relationPositions
      = (c.tables.map fun t => (List.range t.relations.length).map fun i => (t.name, i)).flatten :=
    fun _ => List.flatMap_def
  rw [classify, classify, classifyAll_eq_foldl, classifyAll_eq_foldl, hblocks, hblocks]
  refine equivalence_agrees.trans (reorders_classifyAt.perm (hperm.map _) ?_ Ne.symm c)
    (reorders_classifyAt.respects_all hstart _)
  have hnames : c.tables.Pairwise fun t u => t.name ≠ u.name := List.pairwise_map.1 hnodup
  refine List.pairwise_map.2 (hnames.imp ?_)
  intro t u hne p hp q hq
  obtain ⟨i, -, rfl⟩ := List.mem_map.1 hp
  obtain ⟨j, -, rfl⟩ := List.mem_map.1 hq
  exact hne

end Catalog

end SchemaLoom
