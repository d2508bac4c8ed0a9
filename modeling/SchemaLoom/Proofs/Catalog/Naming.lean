/-
Names that are given as arguments of directives.

Keys and relations give names that end up in generated declarations.  If those are names of the
language (`GivesNames`), then so are all names that a table provides (`Table.IsNamed`): those of
the document it rests on, those that are given, and those that classification makes up from them.

Names that are made up glue given names together with a change of case.  The case mapping is that
of the whole character set, and a character may grow into several; on the characters of names it
is the small table of letters, so what is needed of it is checked for each of them
(`forall_isNameContinue`).

The catalog before classification (`collected`) is taken apart here too, since classification
starts from it with nothing implied and no target known.
-/
import SchemaLoom.Proofs.Catalog.PublishedEdit
import SchemaLoom.Text.Case

namespace SchemaLoom

open Sdl

/-! ### Letters

Locations and names of inputs are put together from given names.  A capital letter in front, or a
word behind, leaves a name a name.
-/

namespace Sdl

theorem toNat_lt_of_isNameContinue {c : Char} (hc : isNameContinue c = true) : c.toNat < 128 := by
  have hbound : ∀ d : Char, c ≤ d → d.toNat < 128 → c.toNat < 128 := fun d hle hsmall =>
    Nat.lt_of_le_of_lt (UInt32.le_iff_toNat_le.1 hle) hsmall
  have hclasses : (decide ('A' ≤ c ∧ c ≤ 'Z') || (decide ('a' ≤ c) && decide (c ≤ 'z'))
      || (decide ('0' ≤ c) && decide (c ≤ '9')) || c == '_') = true := hc
  simp only [Bool.or_eq_true, decide_eq_true_eq, Bool.and_eq_true, beq_iff_eq] at hclasses
  rcases hclasses with ((hc | hc) | hc) | rfl
  · exact hbound 'Z' hc.2 (by decide)
  · exact hbound 'z' hc.2 (by decide)
  · exact hbound '9' hc.2 (by decide)
  · decide

/-- A property of the characters of names may be checked for each. -/
theorem forall_isNameContinue {P : Char → Prop}
    (h : ∀ n < 128, isNameContinue (Char.ofNat n) = true → P (Char.ofNat n)) {c : Char}
    (hc : isNameContinue c = true) : P c := by
  have hat := h c.toNat (toNat_lt_of_isNameContinue hc)
  rw [Char.ofNat_toNat] at hat
  exact hat hc

/-- Names one after the other make a name. -/
theorem isName_join {s t : String} (hs : isName s = true) (ht : isName t = true) :
    isName (s ++ t) = true :=
  isName_append hs (continuesName_of_isName ht)

/-- A name with a small first letter is a name. -/
theorem isName_lowerFirst {s : String} (hname : isName s = true) :
    isName (Text.lowerFirst s) = true := by
  have hlower : ∀ c, isNameStart c = true → isNameStart c.toLower = true := fun c hc =>
    forall_isNameContinue (P := fun c => isNameStart c = true → isNameStart c.toLower = true)
      (by decide) (isNameContinue_of_isNameStart hc) hc
  unfold isName at hname
  cases hs : s.toList with
  | nil => simp [hs] at hname
  | cons first cs =>
    simp only [hs, Bool.and_eq_true] at hname
    have hsmall := toNat_lt_of_isNameContinue (isNameContinue_of_isNameStart hname.1)
    simp only [isName, Text.lowerFirst, Text.mapFirst, hs, Text.lowerChar, if_pos hsmall,
      String.toList_ofList, List.singleton_append, Bool.and_eq_true]
    exact ⟨hlower first hname.1, hname.2⟩

/-- A name with a capital first letter may follow within a name. -/
theorem continuesName_upperFirst {s : String} (hname : isName s = true) :
    ContinuesName (Text.upperFirst s) := by
  have hupper : ∀ c, isNameContinue c = true → isNameContinue c.toUpper = true := fun c hc =>
    forall_isNameContinue (P := fun c => isNameContinue c.toUpper = true) (by decide) hc
  have hmore := continuesName_of_isName hname
  unfold ContinuesName at hmore
  cases hs : s.toList with
  | nil => simp [isName, hs] at hname
  | cons first cs =>
    rw [hs, List.forall_mem_cons] at hmore
    have hsmall := toNat_lt_of_isNameContinue hmore.1
    simp only [ContinuesName, Text.upperFirst, Text.mapFirst, hs, Text.upperChar, if_pos hsmall,
      String.toList_ofList, List.singleton_append, List.forall_mem_cons]
    exact ⟨hupper first hmore.1, hmore.2⟩

end Sdl

/-! ### Given names -/

/-- The name of `k`, its attributes and the name of its query are names of the language, as far as
they are given. -/
structure Key.IsNamed (k : Key) : Prop where
  fields : ∀ f ∈ k.fields, isName f = true
  name : ∀ n ∈ present k.name, isName n = true
  queryField : ∀ n ∈ present k.queryField, isName n = true

instance (k : Key) : Decidable k.IsNamed :=
  decidable_of_iff ((∀ f ∈ k.fields, isName f = true) ∧ (∀ n ∈ present k.name, isName n = true) ∧
      ∀ n ∈ present k.queryField, isName n = true)
    ⟨fun h => ⟨h.1, h.2.1, h.2.2⟩, fun h => ⟨h.fields, h.name, h.queryField⟩⟩

/-- The attributes that `r` gives are names of the language. -/
structure Relation.IsNamed (r : Relation) : Prop where
  foreignKey : ∀ n ∈ present r.foreignKey, isName n = true
  myKey : ∀ n ∈ present r.myKey, isName n = true

instance (r : Relation) : Decidable r.IsNamed :=
  decidable_of_iff ((∀ n ∈ present r.foreignKey, isName n = true) ∧
      ∀ n ∈ present r.myKey, isName n = true)
    ⟨fun h => ⟨h.1, h.2⟩, fun h => ⟨h.foreignKey, h.myKey⟩⟩

/-- What the names that go into generated declarations have to be. -/
structure Catalog.GivesNames (c : Catalog) : Prop where
  keys : ∀ t ∈ c.tables, ∀ key ∈ t.keys, key.IsNamed
  relations : ∀ t ∈ c.tables, ∀ r ∈ t.relations, r.IsNamed

instance (c : Catalog) : Decidable c.GivesNames :=
  decidable_of_iff ((∀ t ∈ c.tables, ∀ key ∈ t.keys, key.IsNamed) ∧
      ∀ t ∈ c.tables, ∀ r ∈ t.relations, r.IsNamed)
    ⟨fun h => ⟨h.1, h.2⟩, fun h => ⟨h.keys, h.relations⟩⟩

/-- All names that `t` provides are names of the language. -/
structure Table.IsNamed (t : Table) : Prop where
  name : isName t.name = true
  fields : ∀ f ∈ t.fields, f.IsNamed
  keys : ∀ key ∈ t.keys, key.IsNamed
  ends : ∀ r ∈ t.relations, isName r.field = true ∧ isName r.target = true
  relations : ∀ r ∈ t.relations, r.IsNamed
  implied : ∀ k ∈ t.impliedForeignKeys, isName k = true

/-! ### What classification makes up

Each thing that classification notes about a table gets a lemma that it keeps names.  Only two
make up a name, the default foreign key and the attribute behind a relation to one item.
-/

namespace Table

variable {t : Table}

/-- A text that is given as a name, or else a name. -/
theorem isName_getD {given : Option String} {default : String}
    (hgiven : ∀ n ∈ present given, isName n = true) (hdefault : isName default = true) :
    isName ((present given).getD default) = true := by
  cases hsome : present given with
  | none => exact hdefault
  | some n => exact hgiven n hsome

theorem IsNamed.defaultForeignKey (h : t.IsNamed) {r : Relation} (hnamed : r.IsNamed)
    (htarget : isName r.target = true) : isName (t.defaultForeignKey r) = true := by
  refine isName_getD hnamed.foreignKey ?_
  exact isName_join (isName_join (isName_lowerFirst htarget) h.name) (by decide)

/-- The attribute behind a relation to one item is a name. -/
theorem IsNamed.myKey (h : t.IsNamed) {r : Relation} (hr : r ∈ t.relations)
    (hone : r.toMany = false) : isName (t.myKey r) = true := by
  have hnamed := h.relations r hr
  refine isName_getD hnamed.myKey ?_
  rw [hone, if_neg (by simp), Table.foreignKey, hone, if_neg (by simp)]
  refine isName_getD hnamed.foreignKey ?_
  exact isName_join (isName_join (isName_lowerFirst h.name) (h.ends r hr).2) (by decide)

theorem IsNamed.setTarget (h : t.IsNamed) (field : String) (key : Key) :
    (t.setTarget field key).IsNamed :=
  ⟨h.name, h.fields, h.keys, h.ends, h.relations, h.implied⟩

theorem IsNamed.setForeignKey (h : t.IsNamed) (field foreignKey : String) :
    (t.setForeignKey field foreignKey).IsNamed :=
  ⟨h.name, h.fields, h.keys, h.ends, h.relations, h.implied⟩

/-- A table in which one relation changed without its ends. -/
theorem IsNamed.modify (h : t.IsNamed) (change : Relation → Relation)
    (hends : ∀ r, (change r).field = r.field ∧ (change r).target = r.target)
    (hchange : ∀ r, r.IsNamed → (change r).IsNamed) (position : Nat) :
    { t with relations := t.relations.modify position change }.IsNamed := by
  have hall := forall_mem_modify
    (P := fun r => (isName r.field = true ∧ isName r.target = true) ∧ r.IsNamed)
    (fun r hr => ⟨h.ends r hr, h.relations r hr⟩) change
    (fun r hr => by rw [(hends r).1, (hends r).2]; exact ⟨hr.1, hchange r hr.2⟩) position
  exact ⟨h.name, h.fields, h.keys, fun r hr => (hall r hr).1, fun r hr => (hall r hr).2, h.implied⟩

theorem IsNamed.setKind (h : t.IsNamed) (position : Nat) (kind : RelationKind) :
    (t.setKind position kind).IsNamed :=
  h.modify (fun r => { r with kind := some kind }) (fun _ => ⟨rfl, rfl⟩)
    (fun _ hr => ⟨hr.foreignKey, hr.myKey⟩) position

theorem IsNamed.addImpliedIndex (h : t.IsNamed) (i : Index) : (t.addImpliedIndex i).IsNamed := by
  unfold Table.addImpliedIndex
  split
  · exact h
  · exact ⟨h.name, h.fields, h.keys, h.ends, h.relations, h.implied⟩

theorem IsNamed.addImpliedForeignKey (h : t.IsNamed) {foreignKey : String}
    (hkey : isName foreignKey = true) : (t.addImpliedForeignKey foreignKey).IsNamed := by
  unfold Table.addImpliedForeignKey
  split
  · exact h
  · refine ⟨h.name, h.fields, h.keys, h.ends, h.relations, ?_⟩
    intro k hk
    rcases List.mem_append.1 hk with hold | hnew
    · exact h.implied k hold
    · rwa [List.mem_singleton.1 hnew]

theorem IsNamed.adoptForeignKey (h : t.IsNamed) (relation owner : String)
    {foreignKey : Option String} (hkey : ∀ n ∈ present foreignKey, isName n = true) :
    (t.adoptForeignKey relation owner foreignKey).IsNamed := by
  unfold Table.adoptForeignKey
  split
  · exact h
  · refine h.modify _ (fun r => ?_) (fun r hr => ?_) _
    · split <;> exact ⟨rfl, rfl⟩
    · split
      · exact ⟨hkey, hr.myKey⟩
      · exact hr

/-- **What a relation implies about the table that it leads to has names.** -/
theorem IsNamed.acceptRelation {target owner : Table} (h : target.IsNamed) (howner : owner.IsNamed)
    {r : Relation} (hnamed : r.IsNamed) (htarget : isName r.target = true) :
    (target.acceptRelation owner r).1.IsNamed :=
  acceptRelation_keeps (fun name => h.adoptForeignKey name owner.name hnamed.foreignKey)
    (h.addImpliedForeignKey (howner.defaultForeignKey hnamed htarget)) fun _ _ _ ht =>
      ht.addImpliedIndex _

end Table

namespace Catalog

/-- All tables of `c` provide names only. -/
def IsNamed (c : Catalog) : Prop := ∀ t ∈ c.tables, t.IsNamed

theorem IsNamed.putTable {c : Catalog} (h : c.IsNamed) {t : Table} (htable : t.IsNamed) :
    (c.putTable t).IsNamed :=
  forall_putTable h htable

theorem survives_isNamed : Survives IsNamed fun r => r.IsNamed ∧ isName r.target = true where
  relation h htable hrelation :=
    ⟨(h _ htable).relations _ hrelation, ((h _ htable).ends _ hrelation).2⟩
  kind h htable position kind := h.putTable ((h _ htable).setKind position kind)
  target h htable field key := h.putTable ((h _ htable).setTarget field key)
  foreignKey h htable field key := h.putTable ((h _ htable).setForeignKey field key)
  accept h htarget howner hrelation :=
    h.putTable ((h _ htarget).acceptRelation (h _ howner) hrelation.1 hrelation.2)

/-! ### Gathering

What a catalog implies is made of the names of its tables and relations, so that no condition on
implied keys is needed.
-/

/-- Until relations are classified, nothing is implied. -/
def ImpliesNothing (c : Catalog) : Prop := ∀ t ∈ c.tables, t.impliedForeignKeys = []

/-- What holds of new tables and is left alone by what tables gain holds of all tables. -/
theorem forall_tables_of_run {P : Table → Prop} (hnew : ∀ body, P { definition := body })
    (hgains : ∀ site t t', Table.Gains site t t' → P t → P t') {phase : Phase}
    {os : List Occurrence} {c c' : Catalog} (h : ∀ t ∈ c.tables, P t)
    (hrun : (Catalog.run phase c os).report.outcome = .ok c') : ∀ t ∈ c'.tables, P t := by
  refine run_invariant (fun next => ∀ t ∈ next.tables, P t) ?_ h hrun
  intro o _ next after hnext hstep
  rcases acts_of_step hstep with rfl | ⟨-, hacts, -⟩
  · exact hnext
  · cases hacts with
    | @register body hsite hfree =>
      intro t ht
      rcases List.mem_append.1 ht with hold | hadded
      · exact hnext t hold
      · rw [List.mem_singleton.1 hadded]
        exact hnew body
    | @gain t t' htable hgain =>
      intro other hother
      rcases mem_putTable hother with rfl | hold
      · exact hgains _ t _ hgain (hnext t (mem_of_table? htable).1)
      · exact hnext other hold
    | _ => exact hnext

/-- The catalog that the directives of a document declare, before its relations are classified. -/
def collected (document : Document) (schemaName : String) (scope : Scope) :
    Except Fault Catalog := do
  let registered ← (dispatch { document, schemaName, scope } .register).report.outcome
  (registered.dispatch .collect).report.outcome

theorem outcome_gather (document : Document) (schemaName : String) (scope : Scope) :
    (gather { document, schemaName, scope }).outcome
      = (collected document schemaName scope).map (·.classify.1) := by
  unfold gather collected
  rw [Report.outcome_bind]
  cases (dispatch { document, schemaName, scope } .register).report.outcome with
  | error fault => rfl
  | ok registered =>
    simp only [Outcome.ok_bind, Report.outcome_bind]
    cases (registered.dispatch .collect).report.outcome <;> rfl

theorem rooted_of_collected {document : Document} {schemaName : String} {scope : Scope}
    {before : Catalog} (h : collected document schemaName scope = .ok before) :
    before.Rooted ∧ before.document = document ∧ before.scope = scope ∧
      before.schemaName = schemaName := by
  unfold collected at h
  obtain ⟨registered, hregistered, hcollected⟩ := Outcome.of_bind_eq_ok h
  obtain ⟨hfirst, hdocument, hscope, hname⟩ :=
    (rooted_empty document schemaName scope).run hregistered
  obtain ⟨hsecond, hdocument', hscope', hname'⟩ := hfirst.run hcollected
  exact ⟨hsecond, hdocument'.trans hdocument, hscope'.trans hscope, hname'.trans hname⟩

/-- A catalog that was gathered was collected and classified. -/
theorem exists_collected_of_gather {document : Document} {schemaName : String} {scope : Scope}
    {c : Catalog} (h : (gather { document, schemaName, scope }).outcome = .ok c) :
    ∃ before, collected document schemaName scope = .ok before ∧ before.tableNames.Nodup ∧
      c = before.classify.1 := by
  rw [outcome_gather] at h
  obtain ⟨before, hbefore, rfl⟩ := Outcome.of_map_eq_ok h
  exact ⟨before, hbefore, (rooted_of_collected hbefore).1.tableNames, rfl⟩

theorem eq_classify_of_gather {document : Document} {schemaName : String} {scope : Scope}
    {before c : Catalog} (hbefore : collected document schemaName scope = .ok before)
    (h : (gather { document, schemaName, scope }).outcome = .ok c) :
    before.tableNames.Nodup ∧ c = before.classify.1 := by
  obtain ⟨before', hbefore', hnodup, rfl⟩ := exists_collected_of_gather h
  rw [hbefore, Except.ok.injEq] at hbefore'
  subst hbefore'
  exact ⟨hnodup, rfl⟩

theorem forall_tables_of_collected {P : Table → Prop} (hnew : ∀ body, P { definition := body })
    (hgains : ∀ site t t', Table.Gains site t t' → P t → P t') {document : Document}
    {schemaName : String} {scope : Scope} {before : Catalog}
    (h : collected document schemaName scope = .ok before) : ∀ t ∈ before.tables, P t := by
  unfold collected at h
  obtain ⟨registered, hregistered, hcollected⟩ := Outcome.of_bind_eq_ok h
  have hempty : ∀ t ∈ ({ document, schemaName, scope } : Catalog).tables, P t :=
    fun t ht => absurd ht List.not_mem_nil
  exact forall_tables_of_run hnew hgains (forall_tables_of_run hnew hgains hempty hregistered)
    hcollected

theorem impliesNothing_of_collected {document : Document} {schemaName : String} {scope : Scope}
    {before : Catalog} (h : collected document schemaName scope = .ok before) :
    before.ImpliesNothing := by
  refine forall_tables_of_collected (P := fun t => t.impliedForeignKeys = []) (fun _ => rfl) ?_ h
  intro site t t' hgains hnone
  cases hgains with
  | unique _ =>
    unfold Table.addUnique
    split <;> exact hnone
  | _ => exact hnone

/-- Until relations are classified, nothing is known of their targets. -/
theorem targetKeys_of_collected {document : Document} {schemaName : String} {scope : Scope}
    {before : Catalog} (h : collected document schemaName scope = .ok before) :
    ∀ t ∈ before.tables, t.targetKeys = [] := by
  refine forall_tables_of_collected (P := fun t => t.targetKeys = []) (fun _ => rfl) ?_ h
  intro site t t' hgains hnone
  cases hgains with
  | unique _ =>
    unfold Table.addUnique
    split <;> exact hnone
  | _ => exact hnone

/-- **If names are given, all names that the tables of a document provide are names.** -/
theorem isNamed_of_gather {document : Document} {schemaName : String} {scope : Scope} {c : Catalog}
    (hnamed : document.IsNamed) (h : (gather { document, schemaName, scope }).outcome = .ok c)
    (hgives : ∀ before, collected document schemaName scope = .ok before → before.GivesNames) :
    c.IsNamed := by
  rw [outcome_gather] at h
  obtain ⟨before, hbefore, rfl⟩ := Outcome.of_map_eq_ok h
  obtain ⟨hrooted, hdocument, -⟩ := rooted_of_collected hbefore
  have hgiven := hgives before hbefore
  have htables : before.document.IsNamed := by rwa [hdocument]
  refine survives_isNamed.classify fun t ht => ?_
  have hdefinition := htables _ (Document.mem_declarations.1 (hrooted.mem_declarations ht).1)
  refine ⟨hdefinition.1, hdefinition.2, hgiven.keys t ht, ?_, hgiven.relations t ht, ?_⟩
  · intro r hr
    exact hrooted.isName_relation htables ht hr
  · rw [impliesNothing_of_collected hbefore t ht]
    intro k hk
    cases hk

end Catalog

end SchemaLoom
