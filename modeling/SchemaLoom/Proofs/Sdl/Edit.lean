/-
What edits do to a document.

An edit reaches one definition: the first object, interface or input type of its name
(`Definition.isTarget`).  So a sequence of edits falls apart into the sequences of those that
reach the same definition (`editsOf`, `editsBeyond`), and what they make of a document can be
told definition by definition (`editAll_cons_of_target`).

Neither the kind nor the name of a definition is changed by an edit (`Definition.key_edit`), and
so a later edit finds what an earlier one found.
-/
import SchemaLoom.Outcome
import SchemaLoom.Sdl.Edit

namespace SchemaLoom.Sdl

/-! ### The first of some items -/

/-- The `items` are `before`, the `first` of which `p` holds, and those `behind` it. -/
structure Splits {β : Type} (p : β → Prop) (items before : List β) (first : β)
    (behind : List β) : Prop where
  eq : items = before ++ first :: behind
  holds : p first
  apart : ∀ other ∈ before, ¬ p other

/-- Either something holds of no item, or there is a first of which it holds. -/
theorem exists_splits {β : Type} (p : β → Prop) (items : List β) :
    (∀ other ∈ items, ¬ p other) ∨ ∃ before first behind, Splits p items before first behind := by
  induction items with
  | nil => exact Or.inl fun _ hnone => nomatch hnone
  | cons other items ih =>
    by_cases h : p other
    · exact Or.inr ⟨[], other, items, rfl, h, fun _ hnone => nomatch hnone⟩
    · refine ih.imp (fun hnone => List.forall_mem_cons.2 ⟨h, hnone⟩) ?_
      rintro ⟨before, first, behind, hsplits⟩
      exact ⟨other :: before, first, behind, by rw [hsplits.eq, List.cons_append], hsplits.holds,
        List.forall_mem_cons.2 ⟨h, hsplits.apart⟩⟩

/-! ### Single edits -/

/-- Objects, interfaces and input types can be edited. -/
def Definition.isEditable : Definition → Bool
  | .object _ | .interface _ | .input _ => true
  | _ => false

/-- The definition `d` can be edited and has the name `name`, so that an edit of this type may reach
it. -/
def Definition.isTarget (name : String) (d : Definition) : Bool :=
  d.isEditable && d.name? = some name

/-- A definition after an edit that reaches it; one that cannot be edited stays as it is. -/
def Definition.edit (e : Edit) (d : Definition) : Except EditFault Definition :=
  (d.edit? e).getD (.ok d)

theorem Definition.edit?_isSome (e : Edit) (d : Definition) :
    (d.edit? e).isSome = d.isEditable := by
  cases d <;> rfl

theorem editDefinitions_of_target {e : Edit} {d : Definition} (htarget : d.isTarget e.type = true)
    (ds : List Definition) : editDefinitions e (d :: ds) = (· :: ds) <$> d.edit e := by
  simp only [Definition.isTarget, Bool.and_eq_true, decide_eq_true_eq] at htarget
  have hsome : (d.edit? e).isSome = true := (d.edit?_isSome e).trans htarget.1
  obtain ⟨edited, hedited⟩ := Option.isSome_iff_exists.1 hsome
  simp only [editDefinitions, htarget.2, ↓reduceIte, hedited, Definition.edit, Option.getD_some]
  rfl

theorem editDefinitions_of_other {e : Edit} {d : Definition} (hother : d.isTarget e.type = false)
    (ds : List Definition) : editDefinitions e (d :: ds) = (d :: ·) <$> editDefinitions e ds := by
  have hnone : (if d.name? = some e.type then d.edit? e else none) = none := by
    by_cases hname : d.name? = some e.type
    · have hplain : d.isEditable = false := by simpa [Definition.isTarget, hname] using hother
      rw [if_pos hname, ← Option.not_isSome_iff_eq_none, d.edit?_isSome, hplain]
      simp
    · exact if_neg hname
  simp only [editDefinitions, hnone]
  rfl

section Member

variable {α : Type} [Member α] {type name : String} {change : α → Except EditFault (List α)}
  {fields before behind changed : List α} {f : α}

/-- Fields are the first of the name `name`, those before it and those behind it. -/
abbrev SplitsAt (name : String) : List α → List α → α → List α → Prop :=
  Splits fun f => Member.name f = name

/-- A change is made where the first field of the name is. -/
theorem changeField_of_splitsAt (h : SplitsAt name fields before f behind) :
    changeField type name change fields = (change f).map fun out => before ++ out ++ behind := by
  obtain ⟨rfl, hname, hbefore⟩ := h
  induction before with
  | nil =>
    rw [List.nil_append, changeField, if_pos hname]
    rfl
  | cons g before ih =>
    obtain ⟨hother, hrest⟩ := List.forall_mem_cons.1 hbefore
    rw [List.cons_append, changeField, if_neg hother, ih hrest]
    cases change f <;> rfl

theorem changeField_of_missing (h : ∀ f ∈ fields, Member.name f ≠ name) :
    changeField type name change fields = .error (.fieldMissing type name) := by
  induction fields with
  | nil => rfl
  | cons f fields ih =>
    obtain ⟨hname, hrest⟩ := List.forall_mem_cons.1 h
    rw [changeField, if_neg hname, ih hrest]
    rfl

/-- The first field of a name gives way to what a change makes of it. -/
theorem exists_split_of_changeField (h : changeField type name change fields = .ok changed) :
    ∃ before f behind out, fields = before ++ f :: behind ∧ Member.name f = name ∧
      (∀ g ∈ before, Member.name g ≠ name) ∧ change f = .ok out ∧
      changed = before ++ out ++ behind := by
  rcases exists_splits (fun f => Member.name f = name) fields with
      hnone | ⟨before, f, behind, hfirst⟩
  · rw [changeField_of_missing hnone] at h
    cases h
  · rw [changeField_of_splitsAt hfirst] at h
    obtain ⟨out, hout, rfl⟩ := Outcome.of_map_eq_ok h
    exact ⟨before, f, behind, out, hfirst.eq, hfirst.holds, hfirst.apart, hout, rfl⟩

end Member

/-- **An edit changes no kind and no name of a definition.** -/
theorem Definition.key_edit {e : Edit} {d d' : Definition} (h : d.edit e = .ok d') :
    d'.key = d.key := by
  cases d with
  | object body =>
    obtain ⟨_, -, h⟩ := Outcome.of_bind_eq_ok h
    cases h
    rfl
  | interface body =>
    obtain ⟨_, -, h⟩ := Outcome.of_bind_eq_ok h
    cases h
    rfl
  | input body =>
    obtain ⟨_, -, h⟩ := Outcome.of_bind_eq_ok h
    cases h
    rfl
  | _ =>
    cases h
    rfl

theorem Definition.isEditable_eq_of_key {d d' : Definition} (h : d'.key = d.key) :
    d'.isEditable = d.isEditable := by
  have hkind : d'.kind = d.kind := congrArg Prod.fst h
  cases d <;> cases d' <;> first | rfl | cases hkind

/-! ### Sequences of edits

If several definitions have one name, edits of this name reach the first of them only.  In the
induction over definitions the edits of the name are therefore taken out once they are made.
-/

/-- Definitions after several edits, one after the other. -/
def editAll (edits : List Edit) (ds : List Definition) : Except EditFault (List Definition) :=
  edits.foldlM (fun ds e => editDefinitions e ds) ds

/-- A definition after several edits that reach it. -/
def Definition.editAll (edits : List Edit) (d : Definition) : Except EditFault Definition :=
  edits.foldlM (fun d e => d.edit e) d

/-- A document after several edits is its definitions after them. -/
theorem foldlM_edit (edits : List Edit) (doc : Document) :
    edits.foldlM Document.edit doc = (editAll edits doc.definitions).map Document.mk := by
  induction edits generalizing doc with
  | nil => rfl
  | cons e edits ih =>
    simp only [editAll, List.foldlM_cons]
    show (editDefinitions e doc.definitions).map Document.mk >>= _ = _
    cases editDefinitions e doc.definitions with
    | error fault => rfl
    | ok ds => exact ih ⟨ds⟩

theorem Definition.key_editAll {edits : List Edit} {d d' : Definition}
    (h : d.editAll edits = .ok d') : d'.key = d.key :=
  Outcome.foldlM_invariant (fun other => other.key = d.key)
    (fun _ _ _ _ hkey hedit => (key_edit hedit).trans hkey) rfl h

/-- Without definitions there is nothing to edit. -/
theorem editAll_of_nil {edits : List Edit} {ds : List Definition} (h : editAll edits [] = .ok ds) :
    edits = [] ∧ ds = [] := by
  cases edits with
  | nil =>
    cases h
    exact ⟨rfl, rfl⟩
  | cons e edits => cases h

/-- The edits of a type of some name. -/
def editsOf (name : String) (edits : List Edit) : List Edit :=
  edits.filter fun e => e.type = name

theorem mem_editsOf {name : String} {edits : List Edit} {e : Edit} :
    e ∈ editsOf name edits ↔ e ∈ edits ∧ e.type = name := by
  simp [editsOf]

theorem editsOf_append (name : String) (es fs : List Edit) :
    editsOf name (es ++ fs) = editsOf name es ++ editsOf name fs :=
  List.filter_append ..

/-- The edits of types of other names. -/
def editsBeyond (name : String) (edits : List Edit) : List Edit :=
  edits.filter fun e => e.type ≠ name

/-- **What edits make of a type and of the definitions behind it can be told apart**: `editsOf` and
`editsBeyond` are the two halves. -/
theorem editAll_cons_of_target {edits : List Edit} {name : String} {d : Definition}
    {ds all : List Definition} (htarget : d.isTarget name = true) :
    editAll edits (d :: ds) = .ok all ↔
      ∃ d' ds', all = d' :: ds' ∧ d.editAll (editsOf name edits) = .ok d' ∧
        editAll (editsBeyond name edits) ds = .ok ds' := by
  induction edits generalizing d ds with
  | nil =>
    constructor
    · intro h
      cases h
      exact ⟨d, ds, rfl, rfl, rfl⟩
    · rintro ⟨d', ds', rfl, hd, hds⟩
      cases hd
      cases hds
      rfl
  | cons e edits ih =>
    -- The edit is either for this definition, which stays a target of the name, or passes it by.
    by_cases htype : e.type = name
    · have hhere : d.isTarget e.type = true := by rw [htype, htarget]
      have hto : editsOf name (e :: edits) = e :: editsOf name edits := by
        simp [editsOf, htype]
      have hbeyond : editsBeyond name (e :: edits) = editsBeyond name edits := by
        simp [editsBeyond, htype]
      rw [hto, hbeyond]
      simp only [editAll, Definition.editAll, List.foldlM_cons, editDefinitions_of_target hhere]
      cases hedit : d.edit e with
      | error fault =>
        constructor
        · intro h
          cases h
        · rintro ⟨d', ds', -, hd, -⟩
          cases hd
      | ok next =>
        have hkey := Definition.key_edit hedit
        have hnext : next.isTarget name = true := by
          have hname : next.name? = d.name? := congrArg Prod.snd hkey
          rw [Definition.isTarget, Definition.isEditable_eq_of_key hkey, hname]
          exact htarget
        exact ih hnext
    · have hother : d.isTarget e.type = false := by
        simp only [Definition.isTarget, Bool.and_eq_true, decide_eq_true_eq] at htarget
        simp [Definition.isTarget, htarget.2, Ne.symm htype]
      have hto : editsOf name (e :: edits) = editsOf name edits := by
        simp [editsOf, htype]
      have hbeyond : editsBeyond name (e :: edits) = e :: editsBeyond name edits := by
        simp [editsBeyond, htype]
      rw [hto, hbeyond]
      simp only [editAll, List.foldlM_cons, editDefinitions_of_other hother]
      cases hedit : editDefinitions e ds with
      | error fault =>
        constructor
        · intro h
          cases h
        · rintro ⟨d', ds', -, -, hds⟩
          cases hds
      | ok next => exact ih htarget

/-- Definitions that cannot be edited stay as they are, in their places. -/
theorem editAll_cons_of_plain {edits : List Edit} {d : Definition} {ds all : List Definition}
    (hplain : d.isEditable = false) :
    editAll edits (d :: ds) = .ok all ↔ ∃ ds', all = d :: ds' ∧ editAll edits ds = .ok ds' := by
  induction edits generalizing ds with
  | nil =>
    constructor
    · intro h
      cases h
      exact ⟨ds, rfl, rfl⟩
    · rintro ⟨ds', rfl, hds⟩
      cases hds
      rfl
  | cons e edits ih =>
    have hother : d.isTarget e.type = false := by simp [Definition.isTarget, hplain]
    simp only [editAll, List.foldlM_cons, editDefinitions_of_other hother]
    cases hedit : editDefinitions e ds with
    | error fault =>
      constructor
      · intro h
        cases h
      · rintro ⟨ds', -, hds⟩
        cases hds
    | ok next => exact ih

/-! ### What stays

Since kinds and names stay, what can be reached by edits is the same for the document and for
every document that edits make of it.
-/

theorem keys_editDefinitions {e : Edit} {ds ds' : List Definition}
    (h : editDefinitions e ds = .ok ds') : ds'.map (·.key) = ds.map (·.key) := by
  induction ds generalizing ds' with
  | nil => cases h
  | cons d ds ih =>
    by_cases htarget : d.isTarget e.type = true
    · rw [editDefinitions_of_target htarget] at h
      obtain ⟨d', hedit, rfl⟩ := Outcome.of_map_eq_ok h
      simp [Definition.key_edit hedit]
    · rw [editDefinitions_of_other (by simpa using htarget)] at h
      obtain ⟨rest, hrest, rfl⟩ := Outcome.of_map_eq_ok h
      simp [ih hrest]

/-- **Edits keep the sequence of kinds and names of a document.** -/
theorem keys_editAll {edits : List Edit} {ds ds' : List Definition}
    (h : editAll edits ds = .ok ds') : ds'.map (·.key) = ds.map (·.key) :=
  Outcome.foldlM_invariant (fun other => other.map (·.key) = ds.map (·.key))
    (fun _ _ _ _ hkeys hedit => (keys_editDefinitions hedit).trans hkeys) rfl h

/-- The names by which definitions can be reached by edits. -/
def targetNames (ds : List Definition) : List String :=
  (ds.filter Definition.isEditable).filterMap (·.name?)

theorem targetNames_cons (d : Definition) (ds : List Definition) :
    targetNames (d :: ds) = (if d.isEditable then d.name?.toList else []) ++ targetNames ds := by
  by_cases heditable : d.isEditable = true
  · cases hname : d.name? <;> simp [targetNames, heditable, hname]
  · simp [targetNames, heditable]

/-- What can be reached depends on kinds and names alone. -/
theorem targetNames_eq_of_keys {ds ds' : List Definition}
    (h : ds'.map (·.key) = ds.map (·.key)) : targetNames ds' = targetNames ds := by
  induction ds generalizing ds' with
  | nil =>
    rw [List.map_nil, List.map_eq_nil_iff] at h
    rw [h]
  | cons d ds ih =>
    cases ds' with
    | nil => cases h
    | cons d' ds' =>
      rw [List.map_cons, List.map_cons, List.cons.injEq] at h
      have hname : d'.name? = d.name? := congrArg Prod.snd h.1
      rw [targetNames_cons, targetNames_cons, ih h.2, hname, Definition.isEditable_eq_of_key h.1]

theorem mem_targetNames {ds : List Definition} {name : String} :
    name ∈ targetNames ds ↔ ∃ d ∈ ds, d.isTarget name = true := by
  simp [targetNames, Definition.isTarget, and_assoc]

/-- A definition is changed only by edits that reach it. -/
theorem mem_or_reached_of_editDefinitions {e : Edit} {ds ds' : List Definition}
    (h : editDefinitions e ds = .ok ds') {d : Definition} (hd : d ∈ ds') :
    d ∈ ds ∨ d.isTarget e.type = true := by
  induction ds generalizing ds' with
  | nil => cases h
  | cons first ds ih =>
    by_cases htarget : first.isTarget e.type = true
    · rw [editDefinitions_of_target htarget] at h
      obtain ⟨edited, hedit, rfl⟩ := Outcome.of_map_eq_ok h
      rcases List.mem_cons.1 hd with rfl | hd
      · have hkey := Definition.key_edit hedit
        have hname : d.name? = first.name? := congrArg Prod.snd hkey
        rw [Definition.isTarget, Definition.isEditable_eq_of_key hkey, hname]
        exact Or.inr htarget
      · exact Or.inl (List.mem_cons_of_mem first hd)
    · rw [editDefinitions_of_other (by simpa using htarget)] at h
      obtain ⟨rest, hrest, rfl⟩ := Outcome.of_map_eq_ok h
      rcases List.mem_cons.1 hd with rfl | hd
      · exact Or.inl List.mem_cons_self
      · exact (ih hrest hd).imp_left (List.mem_cons_of_mem first)

/-- A definition that no edit reaches is one of the document that was edited. -/
theorem mem_or_reached_of_editAll {edits : List Edit} {ds ds' : List Definition}
    (h : editAll edits ds = .ok ds') {d : Definition} (hd : d ∈ ds') :
    d ∈ ds ∨ ∃ e ∈ edits, d.isTarget e.type = true := by
  refine Outcome.foldlM_invariant
    (fun other => ∀ d ∈ other, d ∈ ds ∨ ∃ e ∈ edits, d.isTarget e.type = true) ?_
    (fun d hd => Or.inl hd) h d hd
  intro e he other other' hother hedit d hd
  rcases mem_or_reached_of_editDefinitions hedit hd with hold | hreached
  · exact hother d hold
  · exact Or.inr ⟨e, he, hreached⟩

end SchemaLoom.Sdl
