/-
The first definition of its kind and name, and the first type of a name.

Appending definitions to a document puts each of them in the place of the first of its kind and
name (`Document.first?`), and an edit reaches the first type of its name (`Document.type?`).
Those two are what can be told of a document while it is put together, even if it has several
definitions of one kind and name, or types of several kinds that share a name.

Such a type stays one of its kind, and its own directives are changed by the edits of its name
alone (`Document.type?_edit`, `Definition.directives_edit`).
-/
import SchemaLoom.Proofs.Sdl.Append
import SchemaLoom.Proofs.Sdl.Marks

namespace SchemaLoom.Sdl

variable {doc next : Document} {d d' e : Definition} {ds : List Definition} {name : String}

/-- The kind and name of an extension of an object type. -/
def extensionKey (name : String) : DefinitionKind × Option String := (.objectExtension, some name)

namespace Document

/-- The first definition of a kind and name. -/
def first? (doc : Document) (k : DefinitionKind × Option String) : Option Definition :=
  doc.definitions.find? fun d => d.key = k

/-- The first type of a name, which is the one that edits reach. -/
def type? (doc : Document) (name : String) : Option Definition :=
  doc.definitions.find? (·.isTarget name)

end Document

/-! ### Kinds and names -/

section Key

variable {k : DefinitionKind × Option String}

theorem find?_putDefinition_key (d : Definition) (ds : List Definition) :
    (putDefinition d ds).find? (fun d => d.key = k)
      = if d.key = k then some d else ds.find? fun d => d.key = k := by
  induction ds with
  | nil => by_cases hkey : d.key = k <;> simp [putDefinition, hkey]
  | cons first ds ih =>
    by_cases hsame : first.key = d.key
    · by_cases hkey : d.key = k <;> simp [putDefinition, hsame, hkey]
    · rw [putDefinition, if_neg hsame]
      by_cases hfirst : first.key = k
      · simp [hfirst, Ne.symm (hfirst ▸ hsame)]
      · simp [hfirst, ih]

/-- **Appending leaves the first definition of a kind and name as it is, or replaces it by one of
those that are appended.** -/
theorem Document.first?_append (doc : Document) (ds : List Definition) :
    (doc.append ds).first? k = doc.first? k ∧ (∀ d ∈ ds, d.key ≠ k) ∨
      ∃ d ∈ ds, d.key = k ∧ (doc.append ds).first? k = some d := by
  unfold Document.append Document.first?
  dsimp only
  generalize doc.definitions = acc
  induction ds generalizing acc with
  | nil => exact Or.inl ⟨rfl, nofun⟩
  | cons first ds ih =>
    rw [List.foldl_cons]
    rcases ih (putDefinition first acc) with ⟨hsame, hnone⟩ | ⟨d, hd, hkey, hfound⟩
    · rw [find?_putDefinition_key] at hsame
      by_cases hfirst : first.key = k
      · rw [if_pos hfirst] at hsame
        exact Or.inr ⟨first, List.mem_cons_self, hfirst, hsame⟩
      · rw [if_neg hfirst] at hsame
        exact Or.inl ⟨hsame, List.forall_mem_cons.2 ⟨hfirst, hnone⟩⟩
    · exact Or.inr ⟨d, List.mem_cons_of_mem first hd, hkey, hfound⟩

/-- An extension is out of reach of edits. -/
theorem Document.first?_extension_of_edit {edit : Edit} (h : doc.edit edit = .ok next) :
    next.first? (extensionKey name) = doc.first? (extensionKey name) := by
  obtain ⟨ds, hds, rfl⟩ := Outcome.of_map_eq_ok h
  unfold Document.first?
  dsimp only
  clear h
  generalize doc.definitions = acc at hds
  induction acc generalizing ds with
  | nil => cases hds
  | cons first acc ih =>
    by_cases htarget : first.isTarget edit.type = true
    · rw [editDefinitions_of_target htarget] at hds
      obtain ⟨edited, hedit, rfl⟩ := Outcome.of_map_eq_ok hds
      have hplain : first.key ≠ extensionKey name := by
        intro hkey
        cases first with
        | objectExtension body => cases htarget
        | _ => cases (Prod.mk.inj hkey).1
      rw [List.find?_cons_of_neg (by simpa [Definition.key_edit hedit] using hplain),
        List.find?_cons_of_neg (by simpa using hplain)]
    · rw [editDefinitions_of_other (by simpa using htarget)] at hds
      obtain ⟨rest, hrest, rfl⟩ := Outcome.of_map_eq_ok hds
      by_cases hkey : first.key = extensionKey name
      · rw [List.find?_cons_of_pos (by simpa using hkey),
          List.find?_cons_of_pos (by simpa using hkey)]
      · rw [List.find?_cons_of_neg (by simpa using hkey),
          List.find?_cons_of_neg (by simpa using hkey)]
        exact ih rest hrest

end Key

/-! ### Types -/

theorem isTarget_eq_of_key (h : d.key = e.key) (name : String) :
    d.isTarget name = e.isTarget name := by
  have hname : d.name? = e.name? := congrArg Prod.snd h
  rw [Definition.isTarget, Definition.isTarget, Definition.isEditable_eq_of_key h, hname]

theorem find?_putDefinition_target (h : ds.find? (·.isTarget name) = some d) (e : Definition) :
    (putDefinition e ds).find? (·.isTarget name) = some (if e.key = d.key then e else d) := by
  induction ds with
  | nil => cases h
  | cons first ds ih =>
    by_cases hfirst : first.isTarget name = true
    · rw [List.find?_cons_of_pos hfirst] at h
      cases h
      by_cases hsame : d.key = e.key
      · rw [putDefinition, if_pos hsame, if_pos hsame.symm,
          List.find?_cons_of_pos (isTarget_eq_of_key hsame name ▸ hfirst)]
      · rw [putDefinition, if_neg hsame, if_neg (Ne.symm hsame), List.find?_cons_of_pos hfirst]
    · rw [List.find?_cons_of_neg hfirst] at h
      by_cases hsame : first.key = e.key
      · have htarget : d.isTarget name = true := List.find?_some h
        have hother : e.key ≠ d.key := by
          intro hkey
          rw [isTarget_eq_of_key (hsame.trans hkey) name] at hfirst
          exact hfirst htarget
        rw [putDefinition, if_pos hsame, if_neg hother,
          List.find?_cons_of_neg (isTarget_eq_of_key hsame name ▸ hfirst), h]
      · rw [putDefinition, if_neg hsame, List.find?_cons_of_neg hfirst, ih h]

/-- **Appending leaves the first type of a name as it is, or replaces it by a type of its kind.** -/
theorem Document.type?_append (h : doc.type? name = some d) (ds : List Definition) :
    (doc.append ds).type? name = some d ∨
      ∃ e ∈ ds, e.key = d.key ∧ (doc.append ds).type? name = some e := by
  unfold Document.type? at h
  unfold Document.append Document.type?
  dsimp only at h ⊢
  generalize doc.definitions = acc at h ⊢
  induction ds generalizing acc d with
  | nil => exact Or.inl h
  | cons first ds ih =>
    rw [List.foldl_cons]
    have hput := find?_putDefinition_target h first
    split at hput
    next hkey =>
      rcases ih _ hput with hkept | ⟨e, he, hsame, hfound⟩
      · exact Or.inr ⟨first, List.mem_cons_self, hkey, hkept⟩
      · exact Or.inr ⟨e, List.mem_cons_of_mem first he, hsame.trans hkey, hfound⟩
    · rcases ih _ hput with hkept | ⟨e, he, hsame, hfound⟩
      · exact Or.inl hkept
      · exact Or.inr ⟨e, List.mem_cons_of_mem first he, hsame, hfound⟩

/-- **An edit reaches the first type of its name, and leaves the first types of other names alone**,
as `type?` finds them. -/
theorem Document.type?_edit {edit : Edit} (h : doc.edit edit = .ok next) (name : String) :
    (edit.type = name ∧ ∃ d d', doc.type? name = some d ∧ d.edit edit = .ok d' ∧
        next.type? name = some d') ∨
      edit.type ≠ name ∧ next.type? name = doc.type? name := by
  obtain ⟨ds, hds, rfl⟩ := Outcome.of_map_eq_ok h
  unfold Document.type?
  dsimp only
  clear h
  generalize doc.definitions = acc at hds
  induction acc generalizing ds with
  | nil => cases hds
  | cons first acc ih =>
    -- The first definition that the edit reaches is the first type of its name.
    by_cases htarget : first.isTarget edit.type = true
    · rw [editDefinitions_of_target htarget] at hds
      obtain ⟨edited, hedit, rfl⟩ := Outcome.of_map_eq_ok hds
      have hsame := isTarget_eq_of_key (Definition.key_edit hedit) name
      by_cases hname : edit.type = name
      · rw [hname] at htarget
        refine Or.inl ⟨hname, first, edited, List.find?_cons_of_pos htarget, hedit, ?_⟩
        exact List.find?_cons_of_pos (hsame ▸ htarget)
      · have hother : first.isTarget name = false := by
          simp only [Definition.isTarget, Bool.and_eq_true, decide_eq_true_eq] at htarget
          simp [Definition.isTarget, htarget.2, hname]
        refine Or.inr ⟨hname, ?_⟩
        rw [List.find?_cons_of_neg (by simp [hsame, hother]),
          List.find?_cons_of_neg (by simp [hother])]
    · rw [editDefinitions_of_other (by simpa using htarget)] at hds
      obtain ⟨rest, hrest, rfl⟩ := Outcome.of_map_eq_ok hds
      rcases ih rest hrest with ⟨rfl, d, d', hfound, hedit, hnext⟩ | ⟨hname, hsame⟩
      · refine Or.inl ⟨rfl, d, d', ?_, hedit, ?_⟩
        · rw [List.find?_cons_of_neg htarget, hfound]
        · rw [List.find?_cons_of_neg htarget, hnext]
      · refine Or.inr ⟨hname, ?_⟩
        rw [List.find?_cons, List.find?_cons, hsame]

/-- A type that can be told apart is the first of its name. -/
theorem Document.type?_eq_some (hnodup : (targetNames doc.definitions).Nodup)
    (hd : d ∈ doc.definitions)
    (htarget : d.isTarget name = true) : doc.type? name = some d := by
  have hsome : (doc.type? name).isSome = true := List.find?_isSome.2 ⟨d, hd, htarget⟩
  obtain ⟨first, hfirst⟩ := Option.isSome_iff_exists.1 hsome
  rw [hfirst, eq_of_isTarget hnodup name (List.mem_of_find?_eq_some hfirst) hd
    (List.find?_some hfirst) htarget]

/-! ### Directives -/

/-- The directives of a type that edits can reach. -/
def Definition.directives : Definition → List Directive
  | .object body | .interface body => body.directives
  | .input body => body.directives
  | _ => []

/-- **An edit leaves the directives of a type as they are, or changes them like it says
(`Edit.change`).** -/
theorem Definition.directives_edit {edit : Edit} (h : d.edit edit = .ok d') :
    d'.directives = d.directives ∨ d'.directives = edit.change d.directives := by
  cases d with
  | object body =>
    obtain ⟨⟨ds', fields'⟩, hmembers, hsame⟩ := Outcome.of_bind_eq_ok h
    cases hsame
    exact (changes_of_editMembers hmembers).own_eq
  | interface body =>
    obtain ⟨⟨ds', fields'⟩, hmembers, hsame⟩ := Outcome.of_bind_eq_ok h
    cases hsame
    exact (changes_of_editMembers hmembers).own_eq
  | input body =>
    obtain ⟨⟨ds', fields'⟩, hmembers, hsame⟩ := Outcome.of_bind_eq_ok h
    cases hsame
    exact (changes_of_editMembers hmembers).own_eq
  | _ =>
    cases h
    exact Or.inl rfl

/-- A type gains the directives that are added to it. -/
theorem Definition.directives_addDirectives {type : String} {names : List String}
    (htarget : d.isTarget name = true) (h : d.edit (.addDirectives type none names) = .ok d') :
    d'.directives = addDirectives names d.directives := by
  cases d with
  | object body | interface body | input body =>
    cases h
    rfl
  | _ => cases htarget

end SchemaLoom.Sdl
