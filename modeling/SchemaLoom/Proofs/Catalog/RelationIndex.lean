/-
The indexes behind relations.

A named relation to many items is resolved by an index of its name in the related table.  There
always is one: the relation has another end there, which gives an index of that name, or it has
none and implies one (`IsNamesake.end_or_implied`).  Only one index of a name is kept.

Its partition is that of the key of the name, or else the foreign key of one of the relations to
many items that share the name (`foreignKey_of_end`, `foreignKey_of_implied`).  Which of them
cannot be told without running classification, so `IsUndisputed` asks that all of them say the
same.  A relation that says an attribute of its own may well be alone with it.

The invariants that steps keep stand in the module about namesakes.  Here they are taken to the
end of classification, from the position at which a relation is classified on.
-/
import SchemaLoom.Proofs.Catalog.IndexSource
import SchemaLoom.Proofs.Catalog.Namesake

namespace SchemaLoom.Catalog

variable {name target : String} {c : Catalog} {position other : String × Nat} {t : Table}
  {r : Relation}

/-! ### In the end

Classification is one step after the other over positions that are known beforehand, so what a
step establishes and all later ones keep holds in the end (`classifyAll_establishes`).  The
relation that is there in the end was there from the start, since declarations do not change.
-/

/-- What is such a relation in the end was one before. -/
theorem IsNamesake.before (hnodup : c.tableNames.Nodup)
    (h : c.classify.1.IsNamesake name target position t r) :
    ∃ t₀ r₀, c.IsNamesake name target position t₀ r₀ ∧ t₀.Kin t := by
  obtain ⟨t₀, ht₀, hkin⟩ := (kin_classify c).tables t (mem_of_table? h.table).1
  have hends : (t₀.relations[position.2]?).map Relation.ends
      = (t.relations[position.2]?).map Relation.ends := by
    rw [← List.getElem?_map, ← List.getElem?_map, hkin.relations]
  rw [h.relation, Option.map_some, Option.map_eq_some_iff] at hends
  obtain ⟨r₀, hrelation, hsame⟩ := hends
  simp only [Relation.ends, Prod.mk.injEq] at hsame
  obtain ⟨-, htarget, hshape, hname⟩ := hsame
  refine ⟨t₀, r₀, ⟨(table?_eq_some_iff hnodup).2 ⟨ht₀, ?_⟩, hrelation, ?_, ?_, ?_⟩, hkin⟩
  · rw [← hkin.name, name_of_table? h.table]
  · rw [← h.toMany, Relation.toMany, Relation.toMany, hshape]
  · rw [hname, h.named]
  · rw [htarget, h.leads]

theorem IsNamesake.mem_relationPositions (h : c.classify.1.IsNamesake name target position t r) :
    position ∈ c.relationPositions := by
  have hposition : position = (t.name, position.2) := Prod.ext (name_of_table? h.table).symm rfl
  rw [hposition]
  exact Catalog.mem_relationPositions (mem_of_table? h.table).1 h.relation

/-- What meets a relation to many items belongs to it. -/
theorem IsNamesake.kindOf_of_isMetBy (h : c.IsNamesake name target position t r) {u : Table}
    (htable : c.table? target = some u) {e : Relation} (hmet : (t.demand r).isMetBy e = true) :
    c.kindOf u e = .belongsTo := by
  obtain ⟨other, hother, hname, htarget, hone⟩ := Demand.isMetBy_iff.1 hmet
  have hsame : other = name := Option.some.inj (hother.symm.trans h.named)
  subst hsame
  have hhere : c.table? e.target = some t := by
    rw [htarget, ← h.table, ← name_of_table? h.table]
    rfl
  have hnamed : r.name = some other := (of_present_eq_some h.named).1
  have hpresent : present e.name = some other := by
    rw [hname, ← hnamed]
    exact h.named.trans hnamed.symm
  have hback : (t.reciprocal? other u.name true).isSome = true := by
    refine List.find?_isSome.2 ⟨r, List.mem_of_getElem? h.relation, ?_⟩
    simp [Table.isEnd, hnamed, h.leads, name_of_table? htable, h.toMany]
  simp [kindOf, hone, hhere, Table.belongsTo, hpresent, hback]

/-- In the end a named relation to many items of a table without another end there has implied an
index. -/
theorem IsNamesake.isImplied_of_classify (hnodup : c.tableNames.Nodup)
    (h : c.classify.1.IsNamesake name target position t r) {u : Table}
    (htable : c.classify.1.table? target = some u) (hend : u.otherEnd? (t.demand r) = none) :
    ∃ i ∈ u.impliedIndexes, i.name = name := by
  obtain ⟨t₀, r₀, hbefore, hkin⟩ := h.before hnodup
  obtain ⟨u₀, hu₀, hkin'⟩ := (kin_classify c).tables u (mem_of_table? htable).1
  have htable₀ : c.table? target = some u₀ :=
    (table?_eq_some_iff hnodup).2 ⟨hu₀, by rw [← hkin'.name, name_of_table? htable]⟩
  have hname : (t₀.demand r₀).name = (t.demand r).name := hbefore.named.trans h.named.symm
  have hend₀ : (u₀.otherEnd? (t₀.demand r₀)).isNone = true := by
    rw [Table.otherEnd?_of_same hname hkin.name.symm,
      Table.isNone_otherEnd?_congr hkin'.relations.symm, hend]
    rfl
  have himplied : IsImplied name target c.classify.1 := by
    refine classifyAll_establishes (P := IsImplied name target)
      (I := fun c => ∃ t r u, c.IsNamesake name target position t r ∧
        c.table? target = some u ∧ (u.otherEnd? (t.demand r)).isNone = true)
      ?_ ?_ (fun _ other _ himplied => isImplied_classifyAt himplied other)
      h.mem_relationPositions ⟨t₀, r₀, u₀, hbefore, htable₀, hend₀⟩
    · rintro c other ⟨t, r, u, hnamesake, htable, hend⟩
      obtain ⟨r', hafter, -, hdemand⟩ := hnamesake.classifyAt other
      refine ⟨_, r', c.noted other u, hafter, table?_noted htable other, ?_⟩
      rw [hdemand, isNone_otherEnd?_noted, hend]
    · rintro c ⟨t, r, u, hnamesake, htable, hend⟩
      exact hnamesake.isImplied htable hend
  obtain ⟨u', htable', i, hi, hname⟩ := himplied
  rw [htable] at htable'
  cases htable'
  exact ⟨i, hi, hname⟩

/-- **In the end a named relation to many items of a table has another end there, or implies an
index.** -/
theorem IsNamesake.end_or_implied (hnodup : c.tableNames.Nodup)
    (h : c.classify.1.IsNamesake name target position t r) {u : Table}
    (htable : c.classify.1.table? target = some u) :
    (∃ e ∈ u.relationsOf .belongsTo, e.name = some name) ∨
      ∃ i ∈ u.impliedIndexes, i.name = name := by
  cases hend : u.otherEnd? (t.demand r) with
  | some e =>
    obtain ⟨hmem, other, hother, hname, -, -⟩ := Table.otherEnd?_eq_some hend
    have hkind := kind_of_classify hnodup (mem_of_table? htable).1 hmem
    rw [h.kindOf_of_isMetBy htable (List.find?_some hend)] at hkind
    refine Or.inl ⟨e, List.mem_filter.2 ⟨hmem, by simpa using hkind⟩, ?_⟩
    rw [hname, ← hother]
    exact h.named
  | none => exact Or.inr (h.isImplied_of_classify hnodup htable hend)

/-- The first relation of a name that belongs to another one is the end of a relation to many
items. -/
theorem exists_namesake_of_end (hnodup : c.tableNames.Nodup) {u : Table}
    (htable : c.classify.1.table? target = some u) {e : Relation}
    (hend : (u.relationsOf .belongsTo).find? (fun e => e.name = some name) = some e) :
    ∃ position s r, c.classify.1.IsNamesake name target position s r ∧
      u.otherEnd? (s.demand r) = some e := by
  have hu := (mem_of_table? htable).1
  obtain ⟨hmem, hbelongs⟩ := List.mem_filter.1 (List.mem_of_find?_eq_some hend)
  have hname : e.name = some name := by simpa using List.find?_some hend
  have hkind := kind_of_classify hnodup hu hmem
  rw [of_decide_eq_true hbelongs, Option.some.injEq] at hkind
  obtain ⟨hone, other, s, hpresent, howner, hback⟩ := of_kindOf_belongsTo hkind.symm
  have hsame : other = name :=
    Option.some.inj ((of_present_eq_some hpresent).1.symm.trans hname)
  subst hsame
  obtain ⟨r, hback⟩ := Option.isSome_iff_exists.1 hback
  have hisend : r.name = some other ∧ r.target = u.name ∧ r.toMany = true := by
    simpa [Table.isEnd, and_assoc] using List.find?_some hback
  obtain ⟨j, hrelation⟩ := List.getElem?_of_mem (List.mem_of_find?_eq_some hback)
  have hnamed : present r.name = some other := by
    rw [hisend.1, ← hname]
    exact hpresent.trans hname.symm
  have hnamesake : c.classify.1.IsNamesake other target (e.target, j) s r :=
    ⟨howner, hrelation, hisend.2.2, hnamed, hisend.2.1.trans (name_of_table? htable)⟩
  -- All that meets the relation belongs to it, so the first of the name is the first that does.
  refine ⟨_, s, r, hnamesake, find?_of_filter hend ?_ fun x hx hmet => ⟨?_, ?_⟩⟩
  · exact Demand.isMetBy_iff.2 ⟨other, hnamed, hname, (name_of_table? howner).symm, hone⟩
  · have hkind := kind_of_classify hnodup hu hx
    rw [hnamesake.kindOf_of_isMetBy htable hmet] at hkind
    simpa using hkind
  · obtain ⟨name, hthis, hthat, -, -⟩ := Demand.isMetBy_iff.1 hmet
    have hsame : some name = some other := hthis.symm.trans hnamed
    simpa [hthat] using hsame

theorem IsNamesake.endIsSettled_of_classify (hnodup : c.tableNames.Nodup)
    (hdistinct : c.ManyFieldsAreDistinct)
    (h : c.classify.1.IsNamesake name target position t r) :
    EndIsSettled name target position.1 c.classify.1 := by
  obtain ⟨t₀, r₀, hbefore, -⟩ := h.before hnodup
  refine classifyAll_establishes (P := EndIsSettled name target position.1)
    (I := fun c => c.ManyFieldsAreDistinct ∧ ∃ t r, c.IsNamesake name target position t r)
    ?_ ?_ ?_ h.mem_relationPositions ⟨hdistinct, t₀, r₀, hbefore⟩
  · rintro c other ⟨hdistinct, t, r, hhere⟩
    obtain ⟨r', hafter, -⟩ := hhere.classifyAt other
    exact ⟨manyFieldsAreDistinct_classifyAt hdistinct other, _, r', hafter⟩
  · rintro c ⟨-, t, r, hhere⟩
    exact hhere.endIsSettled
  · rintro c other ⟨hdistinct, -⟩ hsettled
    exact endIsSettled_classifyAt hdistinct hsettled other

/-- An index that comes from the end of a relation is partitioned by the foreign key of a relation
to many items. -/
theorem foreignKey_of_end (hnodup : c.tableNames.Nodup) (hdistinct : c.ManyFieldsAreDistinct)
    {u : Table} (htable : c.classify.1.table? target = some u) {e : Relation}
    (hend : (u.relationsOf .belongsTo).find? (fun e => e.name = some name) = some e) :
    ∃ position s r, c.classify.1.IsNamesake name target position s r ∧
      s.foreignKey r = u.foreignKey e := by
  obtain ⟨position, s, r, hnamesake, hother⟩ := exists_namesake_of_end hnodup htable hend
  obtain ⟨i, s', r', hlast, hkeys⟩ := hnamesake.endIsSettled_of_classify hnodup hdistinct
  have hsame : s = s' := Option.some.inj (hnamesake.table.symm.trans hlast.table)
  subst hsame
  have hname : (s.demand r').name = (s.demand r).name := hlast.named.trans hnamesake.named.symm
  have hother' : u.otherEnd? (s.demand r') = some e := by
    rw [Table.otherEnd?_of_same hname rfl, hother]
  obtain ⟨-, -, -, -, -, hone⟩ := Table.otherEnd?_eq_some hother
  exact ⟨_, s, r', hlast, Table.foreignKey_of_lookup hlast.toMany (hkeys u e htable hother')
    (Table.foreignKey_ne_of_toOne u hone)⟩

/-- An implied index is partitioned by the foreign key of a relation to many items, unless it was
there before. -/
theorem foreignKey_of_implied (hnodup : c.tableNames.Nodup) (hdistinct : c.ManyFieldsAreDistinct)
    {u : Table} (htable : c.classify.1.table? target = some u) {i : Index}
    (hi : i ∈ u.impliedIndexes) (hname : i.name = name) :
    (∃ before, c.table? target = some before ∧ i ∈ before.impliedIndexes) ∨
      ∃ position s r, c.classify.1.IsNamesake name target position s r ∧
        s.foreignKey r = i.partition := by
  obtain ⟨before, hmem, hkin⟩ := (kin_classify c).tables u (mem_of_table? htable).1
  have hbefore : c.table? target = some before :=
    (table?_eq_some_iff hnodup).2 ⟨hmem, by rw [← hkin.name, name_of_table? htable]⟩
  have hsettled := classifyAll_keeps
    (P := fun c => c.ManyFieldsAreDistinct ∧ ImpliedAreSettled name target before.impliedIndexes c)
    (fun c other h => ⟨manyFieldsAreDistinct_classifyAt h.1 other,
      impliedAreSettled_classifyAt h.1 h.2 other⟩) c.relationPositions (c := c) ⟨hdistinct, ?_⟩
  · rcases hsettled.2 u htable i hi hname with hold | ⟨position, s, r, hnamesake, -, hkey, hlookup⟩
    · exact Or.inl ⟨before, hbefore, hold⟩
    · exact Or.inr ⟨position, s, r, hnamesake,
        Table.foreignKey_of_lookup hnamesake.toMany hlookup (hkey ▸ Table.ownKey_ne _)⟩
  · intro u' htable' j hj _
    rw [hbefore] at htable'
    cases htable'
    exact Or.inl hj

/-! ### The index behind a relation

Once it is known that an index of the name exists, `SourceOf` says where the one that is kept
comes from.  Tenancy is no source here: its index is kept only if neither an end nor an implied
index has the name, and one of them does.
-/

/-- Whatever an index of the name `name` in `u` may come from says that `field` partitions it: the
key of the name; or, if there is none, what was implied before classification, and every relation of
the name to many items of the table. -/
inductive IsUndisputed (c : Catalog) (u : Table) (name field : String) : Prop where
  | key {key : Key} (hkey : u.keys.find? (fun key => key.name = some name) = some key)
    (hpartition : key.partition = field)
  | relations (hkeys : ∀ key ∈ u.keys, key.name ≠ some name)
    (hbefore : ∀ before, c.table? u.name = some before → ∀ i ∈ before.impliedIndexes,
      i.name = name → i.partition = field)
    (hdistinct : c.ManyFieldsAreDistinct)
    (hsame : ∀ s ∈ c.classify.1.tables, ∀ r ∈ s.relations, r.toMany = true →
      present r.name = some name → r.target = u.name → s.foreignKey r = field)

/-- What is undisputed partitions the index. -/
theorem IsUndisputed.partition_eq (hnodup : c.tableNames.Nodup) {u : Table} {field : String}
    (h : c.IsUndisputed u name field) (htable : c.classify.1.table? target = some u) {i : Index}
    (hindex : i.name = name) (hsource : u.SourceOf name i)
    (hthere : (∃ e ∈ u.relationsOf .belongsTo, e.name = some name) ∨
      ∃ i ∈ u.impliedIndexes, i.name = name) : i.partition = field := by
  cases h with
  | key hkey hpartition =>
    have hthis := List.find?_some hkey
    have hnone : ¬ ∀ key ∈ u.keys, key.name ≠ some name := fun hkeys =>
      hkeys _ (List.mem_of_find?_eq_some hkey) (by simpa using hthis)
    cases hsource with
    | key hkey' hpartition' =>
      rw [hkey, Option.some.injEq] at hkey'
      rw [hpartition', ← hkey', hpartition]
    | relation hkeys => exact absurd hkeys hnone
    | implied hkeys => exact absurd hkeys hnone
    | tenancy hkeys => exact absurd hkeys hnone
  | relations hkeys hbefore hdistinct hsame =>
    -- All relations of the name agree, so it does not matter which one has made the index.
    have hall : ∀ position s r, c.classify.1.IsNamesake name target position s r →
        s.foreignKey r = field := fun position s r h =>
      hsame s (mem_of_table? h.table).1 r (List.mem_of_getElem? h.relation) h.toMany h.named
        (h.leads.trans (name_of_table? htable).symm)
    cases hsource with
    | key hkey =>
      have hthis := List.find?_some hkey
      exact absurd (by simpa using hthis) (hkeys _ (List.mem_of_find?_eq_some hkey))
    | relation _ hend hpartition =>
      obtain ⟨position, s, r, hnamesake, hkey⟩ := foreignKey_of_end hnodup hdistinct htable hend
      rw [hpartition, ← hkey, hall position s r hnamesake]
    | implied _ himplied =>
      rcases foreignKey_of_implied hnodup hdistinct htable himplied hindex with
        ⟨before, htable₀, hold⟩ | ⟨position, s, r, hnamesake, hkey⟩
      · rw [← name_of_table? htable] at htable₀
        exact hbefore before htable₀ i hold hindex
      · rw [← hkey, hall position s r hnamesake]
    | tenancy _ hends himplied =>
      rcases hthere with ⟨e, he, hname⟩ | ⟨j, hj, hname⟩
      · exact absurd hname (hends e he)
      · exact absurd hname (himplied j hj)

/-- **Behind every named relation to many items of a table there is one index of its name.** It is
partitioned by the attribute that the relation asks for, unless something else of that name
disagrees (`Catalog.IsUndisputed`). -/
theorem relationIndex_of_classify (hnodup : c.tableNames.Nodup) {u : Table}
    (ht : t ∈ c.classify.1.tables) (hr : r ∈ t.relations) (hmany : r.toMany = true)
    (hname : present r.name = some name) (htable : c.classify.1.table? r.target = some u) :
    ∃ indexes i, u.secondaryIndexes = .ok indexes ∧ i ∈ indexes ∧ i.name = name ∧
      (∀ other ∈ indexes, other.name = name → other = i) ∧
      (c.IsUndisputed u name (t.yourKey r) → i.partition = t.yourKey r) := by
  obtain ⟨position, hrelation⟩ := List.getElem?_of_mem hr
  have hnames : c.classify.1.tableNames.Nodup := (kin_classify c).tableNames ▸ hnodup
  have hnamesake : c.classify.1.IsNamesake name r.target (t.name, position) t r :=
    ⟨(table?_eq_some_iff hnames).2 ⟨ht, rfl⟩, hrelation, hmany, hname, rfl⟩
  have hends := endsAreNamed_of_classify hnodup (mem_of_table? htable).1
  have hthere := hnamesake.end_or_implied hnodup htable
  obtain ⟨i, hi, hindex, hfound, hunique⟩ :=
    Table.exists_mem_firstOfName (Table.exists_mem_allIndexes hthere)
  exact ⟨_, i, Table.secondaryIndexes_eq hends, hi, hindex, hunique, fun hundisputed =>
    hundisputed.partition_eq hnodup htable hindex (Table.sourceOf_of_find? hfound) hthere⟩

/-! ### Authors and their posts -/

/-- Authors with posts, as the options of the relation say, and the posts. -/
def authorsWithPosts (options : List (String × Sdl.Value)) : Sdl.Document :=
  ⟨[tableOf "Author" [⟨none, "posts", [], .list (.named "Post"),
      [⟨"connection", ("name", .string "P" false) :: options⟩]⟩],
    tableOf "Post" [⟨none, "title", [], .named "String", []⟩]]⟩

/-- The posts of an author are found in the index of the relation. -/
theorem postsOfAuthors_indexed :
    ∃ c t r u indexes i, collected (authorsWithPosts []) "schema.graphql" none = .ok c ∧
      t ∈ c.classify.1.tables ∧ r ∈ t.relations ∧ r.toMany = true ∧ present r.name = some "P" ∧
      c.classify.1.table? r.target = some u ∧ u.secondaryIndexes = .ok indexes ∧ i ∈ indexes ∧
      i.name = "P" ∧ i.partition = t.yourKey r := by
  have hfacts : Outcome.Holds (collected (authorsWithPosts []) "schema.graphql" none) fun c =>
      c.tableNames.Nodup ∧ (∀ t ∈ c.tables, t.ManyFieldsAreDistinct ∧ t.impliedIndexes = []) ∧
        ∃ t ∈ c.classify.1.tables, ∃ r ∈ t.relations, r.toMany = true ∧
          present r.name = some "P" ∧
          (∃ u ∈ c.classify.1.tables, u.name = r.target ∧ u.keys = []) ∧
          ∀ s ∈ c.classify.1.tables, ∀ r' ∈ s.relations, s.foreignKey r' = t.yourKey r := by
    decide +kernel
  obtain ⟨c, hcollected, hnodup, htables, t, ht, r, hr, hmany, hname, ⟨u, hu, htarget, hkeys⟩,
    hsame⟩ := hfacts
  have hnames : c.classify.1.tableNames.Nodup := (kin_classify c).tableNames ▸ hnodup
  have htable := (table?_eq_some_iff hnames).2 ⟨hu, htarget⟩
  obtain ⟨indexes, i, hindexes, hi, hindex, -, hpartition⟩ :=
    relationIndex_of_classify hnodup ht hr hmany hname htable
  have hundisputed : c.IsUndisputed u "P" (t.yourKey r) := by
    refine .relations ?_ ?_ (fun s hs => (htables s hs).1) fun s hs r' hr' _ _ _ =>
      hsame s hs r' hr'
    · simp [hkeys]
    · intro before hbefore i hi
      rw [(htables before (mem_of_table? hbefore).1).2] at hi
      cases hi
  exact ⟨c, t, r, u, indexes, i, hcollected, ht, hr, hmany, hname, htable, hindexes, hi, hindex,
    hpartition hundisputed⟩

/-- If a relation says the attribute itself, its index may be partitioned by another one. -/
theorem postsOfAuthors_misled :
    Outcome.Holds
      (collected (authorsWithPosts [("yourKey", .string "writer" false)]) "schema.graphql" none)
      fun c => c.tableNames.Nodup ∧ ∃ t ∈ c.classify.1.tables, ∃ r ∈ t.relations,
        r.toMany = true ∧ present r.name = some "P" ∧
        ∃ u ∈ c.classify.1.tables, u.name = r.target ∧
          Outcome.Holds u.secondaryIndexes fun indexes =>
            ∀ i ∈ indexes, i.name = "P" → i.partition ≠ t.yourKey r := by
  decide +kernel

end SchemaLoom.Catalog
