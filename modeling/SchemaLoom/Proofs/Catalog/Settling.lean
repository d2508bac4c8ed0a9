/-
What is settled of relations.

A relation is classified once.  What is found out then about it holds in the end, since what is
noted later about other relations does not undo it.

That is an induction over positions with two ways to use it.  What every step leaves in place
holds in the end if it held at first (`classifyAll_keeps`).  What one step brings about, and the
others leave in place, holds in the end if the step has its turn (`classifyAll_establishes`);
every relation has (`mem_relationPositions`).

The kind of a relation is the first use: in the end it is what the catalog says
(`kind_of_classify`), so relations that belong to others have names.  What is known of targets is
the second: it is known of tables that relations lead to (`leadsToTable_of_classify`).
-/
import SchemaLoom.Proofs.Catalog.Order

namespace SchemaLoom

namespace Table

theorem map_kind_noteDemand (t : Table) (f : Finding) :
    (t.noteDemand f).relations.map (·.kind) = t.relations.map (·.kind) := by
  unfold noteDemand
  split
  · split
    · rw [relations_answer]
      exact map_adoptFirst (fun _ _ => rfl) t.relations
    · rfl
  · rfl

theorem map_kind_noteKind (t : Table) (f : Finding) :
    (t.noteKind f).relations.map (·.kind) =
      if t.name = f.owner then (t.relations.map (·.kind)).modify f.position fun _ => some f.kind
      else t.relations.map (·.kind) := by
  unfold noteKind
  split
  · have hkind : (t.setKind f.position f.kind).relations.map (·.kind)
        = (t.relations.map (·.kind)).modify f.position fun _ => some f.kind := by
      refine List.ext_getElem? fun i => ?_
      simp only [setKind, List.getElem?_map, List.getElem?_modify]
      by_cases hhere : f.position = i
      · cases t.relations[i]? with
        | none => simp
        | some r => simp [hhere]
      · simp [hhere]
    cases f.key <;> exact hkind
  · rfl

/-- What becomes of the kind of a relation when a finding is noted. -/
theorem kind_of_note {t : Table} {f : Finding} {i : Nat} {r' : Relation}
    (h : (t.note f).relations[i]? = some r') :
    ∃ r, t.relations[i]? = some r ∧ r'.ends = r.ends ∧
      r'.kind = if t.name = f.owner ∧ f.position = i then some f.kind else r.kind := by
  have hends :
      ((t.note f).relations.map Relation.ends)[i]? = (t.relations.map Relation.ends)[i]? := by
    rw [(kin_note t f).relations]
  rw [List.getElem?_map, List.getElem?_map, h, Option.map_some, eq_comm,
    Option.map_eq_some_iff] at hends
  obtain ⟨r, hrelation, hsame⟩ := hends
  refine ⟨r, hrelation, hsame.symm, ?_⟩
  have hkinds : (t.note f).relations.map (·.kind) =
      if t.name = f.owner then (t.relations.map (·.kind)).modify f.position fun _ => some f.kind
      else t.relations.map (·.kind) := by
    rw [note, relations_noteKey, map_kind_noteDemand, map_kind_noteKind]
  have hkind := congrArg (·[i]?) hkinds
  simp only [List.getElem?_map, h, Option.map_some] at hkind
  by_cases howner : t.name = f.owner
  · rw [if_pos howner, List.getElem?_modify, List.getElem?_map, hrelation] at hkind
    by_cases hhere : f.position = i
    · simpa [howner, hhere] using hkind
    · simpa [hhere] using hkind
  · rw [if_neg howner, List.getElem?_map, hrelation] at hkind
    simpa [howner] using hkind

theorem targetKeys_noteDemand (t : Table) (f : Finding) :
    (t.noteDemand f).targetKeys = t.targetKeys := by
  unfold noteDemand
  split
  next d _ _ =>
    split
    · have hsame := congrArg Table.targetKeys (withoutImplied_answer t d)
      exact hsame
    · rfl
  · rfl

theorem targetKeys_note (t : Table) (f : Finding) :
    (t.note f).targetKeys = (t.noteKind f).targetKeys := by
  rw [← targetKeys_noteDemand (t.noteKind f) f]
  unfold note noteKey
  split
  · split <;> rfl
  · rfl

/-- What is known of the target of a relation was known before, or has been found out about it. -/
theorem of_mem_targetKeys_note {t : Table} {f : Finding} {e : String × Key}
    (h : e ∈ (t.note f).targetKeys) :
    e ∈ t.targetKeys ∨ t.name = f.owner ∧ e.1 = f.field ∧ f.key.isSome = true := by
  rw [targetKeys_note] at h
  unfold noteKind at h
  by_cases howner : t.name = f.owner
  · rw [if_pos howner] at h
    cases hfound : f.key with
    | none =>
      rw [hfound] at h
      exact Or.inl h
    | some key =>
      rw [hfound] at h
      rcases List.mem_cons.1 h with rfl | hold
      · exact Or.inr ⟨howner, rfl, rfl⟩
      · exact Or.inl (List.mem_filter.1 hold).1
  · rw [if_neg howner] at h
    exact Or.inl h

/-- Every relation of `t` that belongs to another one has a name. -/
def EndsAreNamed (t : Table) : Prop := ∀ r ∈ t.relationsOf .belongsTo, r.name.isSome = true

end Table

namespace Catalog

/-- The names of tables are as distinct as before. -/
theorem nodup_tableNames_classify {c : Catalog} (hnodup : c.tableNames.Nodup) :
    c.classify.1.tableNames.Nodup :=
  (kin_classify c).tableNames ▸ hnodup

theorem table?_of_mem_classify {c : Catalog} (hnodup : c.tableNames.Nodup) {t : Table}
    (ht : t ∈ c.classify.1.tables) : c.classify.1.table? t.name = some t :=
  (table?_eq_some_iff (nodup_tableNames_classify hnodup)).2 ⟨ht, rfl⟩

/-! ### Once and for all

A property that a step establishes and the others keep holds after the run of every relation,
since each has its turn.
-/

/-- What classifying one relation leaves in place holds once all relations are classified. -/
theorem classifyAll_keeps {P : Catalog → Prop} (hkeeps : ∀ c other, P c → P (c.classifyAt other).1)
    (positions : List (String × Nat)) {c : Catalog} (h : P c) : P (c.classifyAll positions).1 := by
  induction positions generalizing c with
  | nil => exact h
  | cons other rest ih => exact ih (hkeeps c other h)

/-- What classifying one relation brings about, and classifying others leaves in place, holds once
all relations are classified. -/
theorem classifyAll_establishes {I P : Catalog → Prop} {position : String × Nat}
    (hstays : ∀ c other, I c → I (c.classifyAt other).1)
    (hhere : ∀ c, I c → P (c.classifyAt position).1)
    (hkeeps : ∀ c other, I c → P c → P (c.classifyAt other).1) {positions : List (String × Nat)}
    (hmem : position ∈ positions) {c : Catalog} (hstart : I c) : P (c.classifyAll positions).1 := by
  induction positions generalizing c with
  | nil => cases hmem
  | cons other rest ih =>
    rcases List.mem_cons.1 hmem with rfl | hlater
    · have hboth := classifyAll_keeps (P := fun c => I c ∧ P c)
        (fun c other h => ⟨hstays c other h.1, hkeeps c other h.1 h.2⟩) rest
        ⟨hstays c position hstart, hhere c hstart⟩
      exact hboth.2
    · exact ih hlater (hstays c other hstart)

/-- Every relation has its turn. -/
theorem mem_relationPositions {c : Catalog} {t : Table} (ht : t ∈ c.classify.1.tables) {i : Nat}
    {r : Relation} (hr : t.relations[i]? = some r) : (t.name, i) ∈ c.relationPositions := by
  obtain ⟨before, hbefore, hkin⟩ := (kin_classify c).tables t ht
  have hlength := congrArg List.length hkin.relations
  rw [List.length_map, List.length_map] at hlength
  have hlt : i < before.relations.length := hlength ▸ (List.getElem?_eq_some_iff.1 hr).1
  exact List.mem_flatMap.2 ⟨before, hbefore,
    List.mem_map.2 ⟨i, List.mem_range.2 hlt, by rw [hkin.name]⟩⟩

/-! ### Kinds

What `Catalog.kindOf` answers depends on the ends of relations, which no step changes.  So a kind
that is set right stays right, although the catalog that it was read from has changed since.
-/

/-- Classifying a relation changes no ends. -/
theorem ends_classifyAt (c : Catalog) (position : String × Nat) (name : String) :
    Option.Rel (fun u u' : Table => u.relations.map Relation.ends = u'.relations.map Relation.ends)
      ((c.classifyAt position).1.table? name) (c.table? name) := by
  rw [table?_classifyAt]
  cases c.table? name with
  | none => exact .none
  | some t =>
    refine .some ?_
    cases c.finding? position with
    | none => rfl
    | some f => exact (Table.kin_note t f).relations

/-- The kind that the relation at `position` has is the one that `Catalog.kindOf` answers for it. -/
def KindIsSettled (position : String × Nat) (c : Catalog) : Prop :=
  ∀ t r, c.table? position.1 = some t → t.relations[position.2]? = some r →
    r.kind = some (c.kindOf t r)

/-- A relation in a catalog with one relation classified, and what it was before. -/
theorem exists_relation_before {c : Catalog} {position other : String × Nat} {t : Table}
    {r : Relation} (htable : (c.classifyAt other).1.table? position.1 = some t)
    (hrelation : t.relations[position.2]? = some r) :
    ∃ t₀ r₀, c.table? position.1 = some t₀ ∧ t₀.relations[position.2]? = some r₀ ∧
      (c.classifyAt other).1.kindOf t r = c.kindOf t₀ r₀ ∧
      r.kind = if other = position then some (c.kindOf t₀ r₀) else r₀.kind := by
  rw [table?_classifyAt, Option.map_eq_some_iff] at htable
  obtain ⟨t₀, hbefore, rfl⟩ := htable
  have hname := name_of_table? hbefore
  cases hfinding : c.finding? other with
  | none =>
    simp only [hfinding, Option.elim_none] at hrelation ⊢
    refine ⟨t₀, r, hbefore, hrelation, kindOf_congr (ends_classifyAt c other) rfl rfl, ?_⟩
    have hother : other ≠ position := by
      rintro rfl
      simp [finding?, hbefore, hrelation] at hfinding
    rw [if_neg hother]
  | some f =>
    simp only [hfinding, Option.elim_some] at hrelation ⊢
    obtain ⟨r₀, hrelation₀, hends, hkind⟩ := Table.kind_of_note hrelation
    refine ⟨t₀, r₀, hbefore, hrelation₀,
      kindOf_congr (ends_classifyAt c other) (Table.kin_note t₀ f).name hends, ?_⟩
    obtain ⟨t', r', htable', hrelation', rfl⟩ := of_finding?_eq_some hfinding
    have hname' := name_of_table? htable'
    rw [hkind]
    -- The kind is set at the position alone; elsewhere it is the one of before.
    by_cases hhere : other = position
    · subst hhere
      rw [hbefore] at htable'
      cases htable'
      rw [hrelation₀] at hrelation'
      cases hrelation'
      rw [if_pos rfl, if_pos ⟨rfl, rfl⟩]
      rfl
    · have hapart : ¬ (t₀.name = t'.name ∧ other.2 = position.2) := by
        rintro ⟨howner, hposition⟩
        exact hhere (Prod.ext (hname'.symm.trans (howner.symm.trans hname)) hposition)
      rw [if_neg hhere, if_neg (by exact hapart)]

/-- **In the end the kind of every relation is what the catalog says it is** (`Catalog.kindOf`). -/
theorem kind_of_classify {c : Catalog} (hnodup : c.tableNames.Nodup) {t : Table}
    (ht : t ∈ c.classify.1.tables) {r : Relation} (hr : r ∈ t.relations) :
    r.kind = some (c.classify.1.kindOf t r) := by
  obtain ⟨i, hrelation⟩ := List.getElem?_of_mem hr
  have htable := table?_of_mem_classify hnodup ht
  have hsettled : KindIsSettled (t.name, i) c.classify.1 := by
    refine classifyAll_establishes (I := fun _ => True) (fun _ _ _ => trivial) ?_ ?_
      (mem_relationPositions ht hrelation) trivial
    · intro c _ t r htable hrelation
      obtain ⟨t₀, r₀, -, -, hsame, hkind⟩ := exists_relation_before htable hrelation
      rw [hkind, hsame, if_pos rfl]
    · intro c other _ hbefore t r htable hrelation
      obtain ⟨t₀, r₀, htable₀, hrelation₀, hsame, hkind⟩ :=
        exists_relation_before htable hrelation
      rw [hkind, hsame]
      split
      · rfl
      · exact hbefore t₀ r₀ htable₀ hrelation₀
  exact hsettled t r htable hrelation

/-- What belongs to another relation has its name, and leads to a table with that relation. -/
theorem of_kindOf_belongsTo {c : Catalog} {t : Table} {r : Relation}
    (h : c.kindOf t r = .belongsTo) : r.toMany = false ∧ ∃ name u, present r.name = some name ∧
      c.table? r.target = some u ∧ (u.reciprocal? name t.name true).isSome = true := by
  unfold kindOf at h
  split at h
  · cases h
  next hone =>
    split at h
    next hbelongs =>
      refine ⟨by simpa using hone, ?_⟩
      cases htable : c.table? r.target with
      | none => simp [htable] at hbelongs
      | some u =>
        rw [htable, Option.any_some, Table.belongsTo] at hbelongs
        cases hname : present r.name with
        | none => simp [hname] at hbelongs
        | some name => exact ⟨name, u, rfl, rfl, by simpa [hname] using hbelongs⟩
    · cases h

theorem of_present_eq_some {name : Option String} {n : String} (h : present name = some n) :
    name = some n ∧ n ≠ "" := by
  have hfilter := Option.filter_eq_some_iff.1 h
  exact ⟨hfilter.1, by simpa using hfilter.2⟩

/-- **In the end relations that belong to others have names.** -/
theorem endsAreNamed_of_classify {c : Catalog} (hnodup : c.tableNames.Nodup) {t : Table}
    (ht : t ∈ c.classify.1.tables) : t.EndsAreNamed := by
  intro r hr
  obtain ⟨hmem, hbelongs⟩ := List.mem_filter.1 hr
  have hkind := kind_of_classify hnodup ht hmem
  rw [of_decide_eq_true hbelongs, Option.some.injEq] at hkind
  obtain ⟨-, name, -, hname, -⟩ := of_kindOf_belongsTo hkind.symm
  rw [(of_present_eq_some hname).1]
  rfl

/-! ### Targets -/

/-- From `field` a relation of `t` leads to a table of `c`. -/
def LeadsToTable (c : Catalog) (t : Table) (field : String) : Prop :=
  ∃ r ∈ t.relations, r.field = field ∧ (c.table? r.target).isSome = true

/-- What is known of targets in `c` is known of tables that relations lead to. -/
def TargetsAreTables (c : Catalog) : Prop :=
  ∀ name t, c.table? name = some t → ∀ e ∈ t.targetKeys, c.LeadsToTable t e.1

theorem isSome_table?_classifyAt (c : Catalog) (position : String × Nat) (name : String) :
    ((c.classifyAt position).1.table? name).isSome = (c.table? name).isSome := by
  rw [table?_classifyAt, Option.isSome_map]

/-- What a table that is noted leads to is what it led to before. -/
theorem LeadsToTable.note {c : Catalog} {t : Table} {field : String} (h : c.LeadsToTable t field)
    (position : String × Nat) {t' : Table} (hkin : t.Kin t') :
    (c.classifyAt position).1.LeadsToTable t' field := by
  obtain ⟨r, hr, hfield, hleads⟩ := h
  have hmem : r.ends ∈ t'.relations.map Relation.ends := hkin.relations ▸ List.mem_map_of_mem hr
  obtain ⟨r', hr', hends⟩ := List.mem_map.1 hmem
  have hfield' : r'.field = r.field := congrArg Prod.fst hends
  have htarget : r'.target = r.target := congrArg (fun ends => ends.2.1) hends
  refine ⟨r', hr', hfield'.trans hfield, ?_⟩
  rw [isSome_table?_classifyAt, htarget]
  exact hleads

theorem targetsAreTables_classifyAt {c : Catalog} (h : c.TargetsAreTables)
    (position : String × Nat) : (c.classifyAt position).1.TargetsAreTables := by
  intro name t' htable' e he
  rw [table?_classifyAt, Option.map_eq_some_iff] at htable'
  obtain ⟨t, htable, rfl⟩ := htable'
  cases hfinding : c.finding? position with
  | none =>
    rw [hfinding] at he
    rw [Option.elim_none]
    exact (h name t htable e he).note position (Table.Kin.refl t)
  | some f =>
    rw [hfinding] at he
    rw [Option.elim_some]
    apply LeadsToTable.note _ position (Table.kin_note t f)
    rcases Table.of_mem_targetKeys_note he with hold | ⟨howner, hfield, hkey⟩
    · exact h name t htable e hold
    · obtain ⟨owner, r, hfound, hrelation, rfl⟩ := of_finding?_eq_some hfinding
      have hsame : position.1 = name :=
        (name_of_table? hfound).symm.trans (howner.symm.trans (name_of_table? htable))
      rw [hsame, htable] at hfound
      cases hfound
      refine ⟨r, List.mem_of_getElem? hrelation, hfield.symm, ?_⟩
      simpa [findingOf] using hkey

/-- **In the end what is known of a target is known of a table that a relation leads to**
(`LeadsToTable`). -/
theorem leadsToTable_of_classify {c : Catalog} (hnodup : c.tableNames.Nodup)
    (hunknown : ∀ t ∈ c.tables, t.targetKeys = []) {t : Table} (ht : t ∈ c.classify.1.tables)
    {r : Relation} (hknown : t.isResolvable r = true) :
    c.classify.1.LeadsToTable t r.field := by
  have hstart : c.TargetsAreTables := by
    intro name t htable e he
    rw [hunknown t (mem_of_table? htable).1] at he
    cases he
  have hend : c.classify.1.TargetsAreTables :=
    classifyAll_keeps (P := TargetsAreTables)
      (fun _ position h => targetsAreTables_classifyAt h position) c.relationPositions hstart
  obtain ⟨key, hkey⟩ := Option.isSome_iff_exists.1 hknown
  obtain ⟨before, after, hsplit, -⟩ := List.lookup_eq_some_iff.1 hkey
  have hmem : (r.field, key) ∈ t.targetKeys := hsplit ▸ List.mem_append_right _ List.mem_cons_self
  exact hend t.name t (table?_of_mem_classify hnodup ht) _ hmem

end Catalog

end SchemaLoom
