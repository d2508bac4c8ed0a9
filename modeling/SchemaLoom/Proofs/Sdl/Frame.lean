/-
What an edit changes, and what it leaves.

An edit changes one definition, and in it the directives or one field (`Definition.Becomes`).  So
it is refused for one of three reasons alone: the type is missing, the field is missing, or the
text to put in is no field (`Definition.Refuses`).

`Edits` and `Refuses` say what an edit does to the directives and fields of a type, for fields
with arguments and for those without.  They are stated with the fields in front and behind
written out, so that the frame of the edit can be read off the statement.
-/
import SchemaLoom.Proofs.Artifact.SchemaText
import SchemaLoom.Proofs.Sdl.Settling

namespace SchemaLoom.Sdl

/-! ### What an edit says -/

section Member

variable {α : Type} [Member α]

/-- What an edit makes of the directives and the fields of a type. -/
inductive Edits : Edit → List Directive → List α → List Directive → List α → Prop where
  | addField {type text : String} {ds : List Directive} {fields : List α} {f : α}
    (htext : Member.parse text = .ok f) : Edits (.addField type text) ds fields ds (fields ++ [f])
  | removeField {type name : String} {ds : List Directive} {fields before behind : List α} {f : α}
    (hfirst : SplitsAt name fields before f behind) :
    Edits (.removeField type name) ds fields ds (before ++ behind)
  | replaceField {type name text : String} {ds : List Directive} {fields before behind : List α}
    {f new : α} (hfirst : SplitsAt name fields before f behind)
    (htext : Member.parse text = .ok new) :
    Edits (.replaceField type name text) ds fields ds (before ++ new :: behind)
  | addDirectives {type : String} {names : List String} {ds : List Directive} {fields : List α} :
    Edits (.addDirectives type none names) ds fields (addDirectives names ds) fields
  | addFieldDirectives {type name : String} {names : List String} {ds : List Directive}
    {fields before behind : List α} {f : α} (hfirst : SplitsAt name fields before f behind) :
    Edits (.addDirectives type (some name) names) ds fields ds
      (before ++ Member.mapDirectives (addDirectives names) f :: behind)
  | removeDirective {type directive : String} {ds : List Directive} {fields : List α} :
    Edits (.removeDirective type none directive) ds fields (dropDirective directive ds) fields
  | removeFieldDirective {type name directive : String} {ds : List Directive}
    {fields before behind : List α} {f : α} (hfirst : SplitsAt name fields before f behind) :
    Edits (.removeDirective type (some name) directive) ds fields ds
      (before ++ Member.mapDirectives (dropDirective directive) f :: behind)

/-- Why an edit is refused by a type with some fields: the field that it addresses is missing, or
the text that it puts in is no field. -/
inductive Refuses (e : Edit) (fields : List α) : Prop where
  | missing {name : String} (hfield : e.field? = some name)
    (hnone : ∀ f ∈ fields, Member.name f ≠ name)
  | malformed {text : String} {fault : EditFault} (htext : e.text? = some text)
    (hparse : (Member.parse text : Except EditFault α) = .error fault)

end Member

/-- What an edit makes of a definition: its directives and fields are edited, and the rest of it
stays. -/
inductive Definition.Becomes (e : Edit) : Definition → Definition → Prop where
  | object {body : ObjectType} {directives : List Directive} {fields : List Field}
    (hedits : Edits e body.directives body.fields directives fields) :
    Becomes e (.object body) (.object { body with directives, fields })
  | interface {body : ObjectType} {directives : List Directive} {fields : List Field}
    (hedits : Edits e body.directives body.fields directives fields) :
    Becomes e (.interface body) (.interface { body with directives, fields })
  | input {body : InputType} {directives : List Directive} {fields : List InputField}
    (hedits : Edits e body.directives body.fields directives fields) :
    Becomes e (.input body) (.input { body with directives, fields })

/-- The definition can be edited, and its fields refuse the edit. -/
def Definition.Refuses (e : Edit) : Definition → Prop
  | .object body | .interface body => Sdl.Refuses e body.fields
  | .input body => Sdl.Refuses e body.fields
  | _ => False

/-! ### Fields

A field is found by its name or not at all, and the change that is made to it either succeeds or
says why not.  No other outcome is left.
-/

section Member

variable {α : Type} [Member α] {type name : String} {change : α → Except EditFault (List α)}
  {fields fields' : List α} {e : Edit} {ds ds' : List Directive}

/-- The fields of a type are changed if there is one of the name and the change can be made. -/
theorem withChangedField_eq_ok_iff :
    (changeField type name change fields >>= fun fs => pure (ds, fs)) = .ok (ds', fields') ↔
      ds' = ds ∧ ∃ before f behind out, SplitsAt name fields before f behind ∧ change f = .ok out ∧
        fields' = before ++ out ++ behind := by
  constructor
  · intro h
    obtain ⟨changed, hchange, h⟩ := Outcome.of_bind_eq_ok h
    cases h
    obtain ⟨before, f, behind, out, rfl, hname, hbefore, hout, rfl⟩ :=
      exists_split_of_changeField hchange
    exact ⟨rfl, before, f, behind, out, ⟨rfl, hname, hbefore⟩, hout, rfl⟩
  · rintro ⟨rfl, before, f, behind, out, hfirst, hout, rfl⟩
    rw [changeField_of_splitsAt hfirst, hout]
    rfl

/-- Otherwise the field is missing, or the change cannot be made. -/
theorem withChangedField_eq_error_iff :
    (∃ fault, (changeField type name change fields >>= fun fs => pure (ds, fs)) = .error fault) ↔
      (∀ f ∈ fields, Member.name f ≠ name) ∨
        ∃ before f behind fault, SplitsAt name fields before f behind ∧
          change f = .error fault := by
  constructor
  · rintro ⟨fault, h⟩
    refine (exists_splits (fun f => Member.name f = name) fields).imp_right ?_
    rintro ⟨before, f, behind, hfirst⟩
    rw [changeField_of_splitsAt hfirst] at h
    cases hchange : change f with
    | error other => exact ⟨before, f, behind, other, hfirst, hchange⟩
    | ok out =>
      rw [hchange] at h
      cases h
  · rintro (hnone | ⟨before, f, behind, fault, hfirst, hfault⟩)
    · rw [changeField_of_missing hnone]
      exact ⟨_, rfl⟩
    · rw [changeField_of_splitsAt hfirst, hfault]
      exact ⟨fault, rfl⟩

/-- A change that can always be made fails only where the field is missing. -/
theorem missing_of_withChangedField {make : α → List α}
    (h : ∃ fault, (changeField type name (fun f => .ok (make f)) fields >>= fun fs => pure (ds, fs))
      = .error fault) : ∀ f ∈ fields, Member.name f ≠ name := by
  rcases withChangedField_eq_error_iff.1 h with hnone | ⟨_, _, _, _, _, hfault⟩
  · exact hnone
  · cases hfault

/-- The directives and fields of a type are edited as the edit says. -/
theorem editMembers_eq_ok_iff :
    editMembers e ds fields = .ok (ds', fields') ↔ Edits e ds fields ds' fields' := by
  constructor
  · intro h
    cases e with
    | addField type text =>
      obtain ⟨f, htext, h⟩ := Outcome.of_bind_eq_ok h
      cases h
      exact .addField htext
    | removeField type name =>
      obtain ⟨rfl, before, f, behind, _, hfirst, hout, rfl⟩ := withChangedField_eq_ok_iff.1 h
      cases hout
      rw [List.append_nil]
      exact .removeField hfirst
    | replaceField type name text =>
      obtain ⟨rfl, before, f, behind, _, hfirst, hout, rfl⟩ := withChangedField_eq_ok_iff.1 h
      obtain ⟨new, htext, hout⟩ := Outcome.of_bind_eq_ok hout
      cases hout
      rw [List.append_assoc]
      exact .replaceField hfirst htext
    | addDirectives type place names =>
      cases place with
      | none =>
        cases h
        exact .addDirectives
      | some name =>
        obtain ⟨rfl, before, f, behind, _, hfirst, hout, rfl⟩ := withChangedField_eq_ok_iff.1 h
        cases hout
        rw [List.append_assoc]
        exact .addFieldDirectives hfirst
    | removeDirective type place directive =>
      cases place with
      | none =>
        cases h
        exact .removeDirective
      | some name =>
        obtain ⟨rfl, before, f, behind, _, hfirst, hout, rfl⟩ := withChangedField_eq_ok_iff.1 h
        cases hout
        rw [List.append_assoc]
        exact .removeFieldDirective hfirst
  · intro h
    cases h with
    | addField htext =>
      rw [editMembers, htext]
      rfl
    | removeField hfirst =>
      exact withChangedField_eq_ok_iff.2 ⟨rfl, _, _, _, _, hfirst, rfl, by simp⟩
    | replaceField hfirst htext =>
      exact withChangedField_eq_ok_iff.2 ⟨rfl, _, _, _, _, hfirst, by rw [htext]; rfl, by simp⟩
    | addDirectives => rfl
    | addFieldDirectives hfirst =>
      exact withChangedField_eq_ok_iff.2 ⟨rfl, _, _, _, _, hfirst, rfl, by simp⟩
    | removeDirective => rfl
    | removeFieldDirective hfirst =>
      exact withChangedField_eq_ok_iff.2 ⟨rfl, _, _, _, _, hfirst, rfl, by simp⟩

/-- An edit is refused for want of the field that it addresses, or for the text that it puts in. -/
theorem editMembers_eq_error_iff :
    (∃ fault, editMembers e ds fields = .error fault) ↔ Refuses e fields := by
  constructor
  · intro h
    cases e with
    | addField type text =>
      obtain ⟨fault, h⟩ := h
      rcases Outcome.of_bind_eq_error h with hparse | ⟨f, -, h⟩
      · exact .malformed rfl hparse
      · cases h
    | removeField type name => exact .missing rfl (missing_of_withChangedField h)
    | replaceField type name text =>
      rcases withChangedField_eq_error_iff.1 h with hnone | ⟨_, _, _, _, _, hfault⟩
      · exact .missing rfl hnone
      · rcases Outcome.of_bind_eq_error hfault with hparse | ⟨new, -, hfault⟩
        · exact .malformed rfl hparse
        · cases hfault
    | addDirectives type place names =>
      cases place with
      | none =>
        obtain ⟨fault, h⟩ := h
        cases h
      | some name => exact .missing rfl (missing_of_withChangedField h)
    | removeDirective type place directive =>
      cases place with
      | none =>
        obtain ⟨fault, h⟩ := h
        cases h
      | some name => exact .missing rfl (missing_of_withChangedField h)
  · rintro (⟨hfield, hnone⟩ | ⟨htext, hparse⟩)
    · cases e with
      | addField type text => cases hfield
      | removeField type other =>
        cases hfield
        exact withChangedField_eq_error_iff.2 (Or.inl hnone)
      | replaceField type other text =>
        cases hfield
        exact withChangedField_eq_error_iff.2 (Or.inl hnone)
      | addDirectives type place names =>
        cases hfield
        exact withChangedField_eq_error_iff.2 (Or.inl hnone)
      | removeDirective type place directive =>
        cases hfield
        exact withChangedField_eq_error_iff.2 (Or.inl hnone)
    · cases e with
      | addField type other =>
        cases htext
        exact ⟨_, by rw [editMembers, hparse]; rfl⟩
      | replaceField type name other =>
        cases htext
        -- The text is read only if the field is there; without it the edit is refused as well.
        refine withChangedField_eq_error_iff.2 ?_
        refine (exists_splits (fun f => Member.name f = name) fields).imp_right ?_
        rintro ⟨before, f, behind, hfirst⟩
        exact ⟨before, f, behind, _, hfirst, by rw [hparse]; rfl⟩
      | removeField type name => cases htext
      | addDirectives type place names => cases htext
      | removeDirective type place directive => cases htext

end Member

/-! ### Types -/

section Definition

variable {e : Edit} {d d' : Definition} {ds before behind : List Definition}

/-- A definition that can be edited becomes what the edit says. -/
theorem Definition.edit_eq_ok_iff (h : d.isEditable = true) :
    d.edit e = .ok d' ↔ d.Becomes e d' := by
  constructor
  · intro hedit
    cases d with
    | object body =>
      obtain ⟨_, hmembers, hedit⟩ := Outcome.of_bind_eq_ok hedit
      cases hedit
      exact .object (editMembers_eq_ok_iff.1 hmembers)
    | interface body =>
      obtain ⟨_, hmembers, hedit⟩ := Outcome.of_bind_eq_ok hedit
      cases hedit
      exact .interface (editMembers_eq_ok_iff.1 hmembers)
    | input body =>
      obtain ⟨_, hmembers, hedit⟩ := Outcome.of_bind_eq_ok hedit
      cases hedit
      exact .input (editMembers_eq_ok_iff.1 hmembers)
    | _ => cases h
  · intro hbecomes
    cases hbecomes with
    | object hedits =>
      simp only [Definition.edit, Definition.edit?, editMembers_eq_ok_iff.2 hedits]
      rfl
    | interface hedits =>
      simp only [Definition.edit, Definition.edit?, editMembers_eq_ok_iff.2 hedits]
      rfl
    | input hedits =>
      simp only [Definition.edit, Definition.edit?, editMembers_eq_ok_iff.2 hedits]
      rfl

/-- It refuses an edit as its fields do. -/
theorem Definition.edit_eq_error_iff : (∃ fault, d.edit e = .error fault) ↔ d.Refuses e := by
  have hmembers {α : Type} [Member α] {directives : List Directive} {fields : List α}
      (rebuild : List Directive × List α → Definition) :
      (∃ fault, (editMembers e directives fields >>= fun ms => pure (rebuild ms)) = .error fault) ↔
        Sdl.Refuses e fields := by
    refine Iff.trans ?_
      (editMembers_eq_error_iff : (∃ fault, editMembers e directives fields = _) ↔ _)
    cases editMembers e directives fields <;> simp
  cases d with
  | object body => exact hmembers fun ms => .object { body with directives := ms.1, fields := ms.2 }
  | interface body =>
    exact hmembers fun ms => .interface { body with directives := ms.1, fields := ms.2 }
  | input body => exact hmembers fun ms => .input { body with directives := ms.1, fields := ms.2 }
  | _ =>
    refine ⟨fun hfault => ?_, False.elim⟩
    obtain ⟨fault, hfault⟩ := hfault
    cases hfault

/-- The first definition that an edit may reach is edited, and the others stay where they are. -/
theorem editDefinitions_of_splits
    (h : Splits (fun d => d.isTarget e.type = true) ds before d behind) :
    editDefinitions e ds = (fun d' => before ++ d' :: behind) <$> d.edit e := by
  obtain ⟨rfl, htarget, hbefore⟩ := h
  induction before with
  | nil => exact editDefinitions_of_target htarget behind
  | cons other before ih =>
    obtain ⟨hother, hrest⟩ := List.forall_mem_cons.1 hbefore
    rw [List.cons_append, editDefinitions_of_other (by simpa using hother), ih hrest]
    cases d.edit e <;> rfl

theorem editDefinitions_of_none (h : ∀ d ∈ ds, ¬ d.isTarget e.type = true) :
    editDefinitions e ds = .error (.typeMissing e.type) := by
  induction ds with
  | nil => rfl
  | cons d ds ih =>
    obtain ⟨hother, hrest⟩ := List.forall_mem_cons.1 h
    rw [editDefinitions_of_other (by simpa using hother), ih hrest]
    rfl

theorem Splits.isEditable (h : Splits (fun d => d.isTarget e.type = true) ds before d behind) :
    d.isEditable = true := by
  have htarget := h.holds
  rw [Definition.isTarget, Bool.and_eq_true] at htarget
  exact htarget.1

end Definition

/-! ### Documents -/

/-- The first definition of a document that an edit may reach, those before it and those behind
it. -/
abbrev Document.SplitsAt (doc : Document) (type : String) :
    List Definition → Definition → List Definition → Prop :=
  Splits (fun d => d.isTarget type = true) doc.definitions

/-- **An edit is refused for want of its type, for want of its field, or for its text; else it
changes one definition.** The definition is the first that has the name of the type and can be
edited (`SplitsAt`), and becomes what the edit says (`Becomes`); all others stay, in their order. -/
theorem edit_outcome (doc : Document) (e : Edit) :
    ((∃ fault, doc.edit e = .error fault) ↔
      (∀ d ∈ doc.definitions, ¬ d.isTarget e.type = true) ∨
        ∃ before d behind, doc.SplitsAt e.type before d behind ∧ d.Refuses e) ∧
    ∀ doc', doc.edit e = .ok doc' ↔
      ∃ before d d' behind, doc.SplitsAt e.type before d behind ∧ d.Becomes e d' ∧
        doc' = ⟨before ++ d' :: behind⟩ := by
  constructor
  · constructor
    · rintro ⟨fault, hfault⟩
      refine (exists_splits (fun d => d.isTarget e.type = true) doc.definitions).imp_right ?_
      rintro ⟨before, d, behind, hfirst⟩
      rw [Document.edit, editDefinitions_of_splits hfirst] at hfault
      have hrefused := Outcome.of_map_eq_error (Outcome.of_map_eq_error hfault)
      exact ⟨before, d, behind, hfirst, Definition.edit_eq_error_iff.1 ⟨fault, hrefused⟩⟩
    · rintro (hnone | ⟨before, d, behind, hfirst, hrefuses⟩)
      · rw [Document.edit, editDefinitions_of_none hnone]
        exact ⟨_, rfl⟩
      · obtain ⟨fault, hfault⟩ := Definition.edit_eq_error_iff.2 hrefuses
        rw [Document.edit, editDefinitions_of_splits hfirst, hfault]
        exact ⟨fault, rfl⟩
  · intro doc'
    constructor
    · intro hedit
      obtain ⟨ds, hdefinitions, rfl⟩ := Outcome.of_map_eq_ok hedit
      rcases exists_splits (fun d => d.isTarget e.type = true) doc.definitions with
        hnone | ⟨before, d, behind, hfirst⟩
      · rw [editDefinitions_of_none hnone] at hdefinitions
        cases hdefinitions
      · rw [editDefinitions_of_splits hfirst] at hdefinitions
        obtain ⟨d', hone, rfl⟩ := Outcome.of_map_eq_ok hdefinitions
        exact ⟨before, d, d', behind, hfirst,
          (Definition.edit_eq_ok_iff hfirst.isEditable).1 hone, rfl⟩
    · rintro ⟨before, d, d', behind, hfirst, hbecomes, rfl⟩
      have hone := (Definition.edit_eq_ok_iff hfirst.isEditable).2 hbecomes
      rw [Document.edit, editDefinitions_of_splits hfirst, hone]
      rfl

end SchemaLoom.Sdl
