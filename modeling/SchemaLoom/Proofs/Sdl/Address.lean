/-
Where directives stand, and how they are changed there.

An address is a type, or a field of it: it leads to the first type of a name that can be edited,
or to the first field of a name in that type.  A change of directives touches no name, so an
address leads to the same place before and after.  Two things follow.  At one address changes
come to one change, which makes them one after the other (`changeAt_changeAt`).  At different
addresses they do not notice each other (`changeAt_comm`).

Both are laws of changing the first member of a list that something holds of (`onFirst`), and
they are lifted from there to fields, to types and to documents.

An edit of directives is such a change, and it can be made if its address leads somewhere
(`Document.edit_of_directives`).
-/
import SchemaLoom.Proofs.Sdl.Frame
import SchemaLoom.Proofs.Sdl.Marks

namespace SchemaLoom.Sdl

/-! ### Changing the first of some items

A change to the first item with some property is seen at this item alone, as long as the changed
item still has the property.
-/

section First

variable {β : Type} {p q : β → Bool} {f g : β → β}

/-- Items of which the first that something holds of is changed. -/
def onFirst (p : β → Bool) (f : β → β) : List β → List β
  | [] => []
  | b :: bs => if p b then f b :: bs else b :: onFirst p f bs

theorem onFirst_of_splits {items before behind : List β} {first : β}
    (h : Splits (fun b => p b = true) items before first behind) :
    onFirst p f items = before ++ f first :: behind := by
  obtain ⟨rfl, hfirst, hbefore⟩ := h
  induction before with
  | nil => rw [List.nil_append, onFirst, if_pos hfirst, List.nil_append]
  | cons other before ih =>
    obtain ⟨hother, hrest⟩ := List.forall_mem_cons.1 hbefore
    rw [List.cons_append, onFirst, if_neg hother, ih hrest, List.cons_append]

theorem find?_of_splits {items before behind : List β} {first : β}
    (h : Splits (fun b => p b = true) items before first behind) : items.find? p = some first := by
  rw [List.find?_eq_some_iff_append]
  exact ⟨h.holds, before, behind, h.eq, fun other hother => by simpa using h.apart other hother⟩

/-- The first item is found again after it was changed. -/
theorem find?_onFirst (hkeeps : ∀ b, p (f b) = p b) (items : List β) :
    (onFirst p f items).find? p = (items.find? p).map f := by
  induction items with
  | nil => rfl
  | cons b items ih =>
    unfold onFirst
    by_cases hfirst : p b = true
    · have hagain : p (f b) = true := (hkeeps b).trans hfirst
      rw [if_pos hfirst, List.find?_cons_of_pos hagain, List.find?_cons_of_pos hfirst,
        Option.map_some]
    · rw [if_neg hfirst, List.find?_cons_of_neg hfirst, List.find?_cons_of_neg hfirst, ih]

/-- What is found by something else is not changed. -/
theorem find?_onFirst_of_apart (hkeeps : ∀ b, p (f b) = p b)
    (hapart : ∀ b, p b = true → q b = false) (items : List β) :
    (onFirst p f items).find? q = items.find? q := by
  induction items with
  | nil => rfl
  | cons b items ih =>
    unfold onFirst
    by_cases hfirst : p b = true
    · have hhere : ¬ q b = true := by simp [hapart b hfirst]
      have hchanged : ¬ q (f b) = true := by simp [hapart (f b) ((hkeeps b).trans hfirst)]
      rw [if_pos hfirst, List.find?_cons_of_neg hchanged, List.find?_cons_of_neg hhere]
    · rw [if_neg hfirst, List.find?_cons, List.find?_cons, ih]

theorem onFirst_onFirst (hkeeps : ∀ b, p (f b) = p b) (items : List β) :
    onFirst p g (onFirst p f items) = onFirst p (fun b => g (f b)) items := by
  induction items with
  | nil => rfl
  | cons b items ih =>
    by_cases hfirst : p b = true
    · rw [onFirst, if_pos hfirst, onFirst, if_pos ((hkeeps b).trans hfirst), onFirst, if_pos hfirst]
    · rw [onFirst, if_neg hfirst, onFirst, if_neg hfirst, onFirst, if_neg hfirst, ih]

/-- Changes of items that are told apart can be made in any order. -/
theorem onFirst_comm (hf : ∀ b, p (f b) = p b) (hg : ∀ b, q (g b) = q b)
    (hapart : ∀ b, p b = true → q b = false) (items : List β) :
    onFirst p f (onFirst q g items) = onFirst q g (onFirst p f items) := by
  induction items with
  | nil => rfl
  | cons b items ih =>
    by_cases hp : p b = true
    · have hq : ¬ q b = true := by simp [hapart b hp]
      have hchanged : ¬ q (f b) = true := by simp [hapart (f b) ((hf b).trans hp)]
      simp only [onFirst, if_pos hp, if_neg hq, if_neg hchanged]
    · by_cases hq : q b = true
      · have hchanged : ¬ p (g b) = true := fun hboth => by
          have haway := hapart (g b) hboth
          rw [hg b, hq] at haway
          cases haway
        simp only [onFirst, if_neg hp, if_pos hq, if_neg hchanged]
      · simp only [onFirst, if_neg hp, if_neg hq, ih]

end First

/-! ### Types -/

/-- Where directives stand: at a type, or at a field of it. -/
@[ext] structure Address where
  type : String
  field : Option String
  deriving DecidableEq

/-- Fields whose directives can be changed several times at once. -/
class Composed (α : Type) [Member α] extends Marked α where
  mapDirectives_mapDirectives : ∀ (change again : List Directive → List Directive) (f : α),
    Member.mapDirectives again (Member.mapDirectives change f)
      = Member.mapDirectives (fun ds => again (change ds)) f

instance : Composed Field where
  mapDirectives_mapDirectives _ _ _ := rfl

instance : Composed InputField where
  mapDirectives_mapDirectives _ _ _ := rfl

section Member

variable {α : Type} [Member α] [Composed α] {place other : Option String}
  {change again : List Directive → List Directive}

/-- Is `name` the name of the field `f`? -/
def hasName (name : String) (f : α) : Bool := Member.name f = name

/-- The directives at a place of a type that has some directives and fields. -/
def directivesIn? (place : Option String) (ms : List Directive × List α) :
    Option (List Directive) :=
  match place with
  | none => some ms.1
  | some name => (ms.2.find? (hasName name)).map Marked.directives

/-- The directives and fields of a type with the directives at a place changed. -/
def changeIn (place : Option String) (change : List Directive → List Directive)
    (ms : List Directive × List α) : List Directive × List α :=
  match place with
  | none => (change ms.1, ms.2)
  | some name => (ms.1, onFirst (hasName name) (Member.mapDirectives change) ms.2)

theorem hasName_mapDirectives (name : String) (change : List Directive → List Directive) (f : α) :
    hasName name (Member.mapDirectives change f) = hasName name f := by
  rw [hasName, hasName, Marked.name_mapDirectives]

omit [Composed α] in
theorem hasName_of_ne {name name' : String} (h : name ≠ name') (f : α)
    (hname : hasName name f = true) :
    hasName name' f = false := by
  simp only [hasName, decide_eq_true_eq, decide_eq_false_iff_not] at hname ⊢
  rw [hname]
  exact h

theorem directivesIn?_changeIn (place : Option String) (change : List Directive → List Directive)
    (ms : List Directive × List α) :
    directivesIn? place (changeIn place change ms) = (directivesIn? place ms).map change := by
  cases place with
  | none => rfl
  | some name =>
    simp only [directivesIn?, changeIn, find?_onFirst (hasName_mapDirectives name change)]
    cases ms.2.find? (hasName name) with
    | none => rfl
    | some f => exact congrArg some (Marked.directives_mapDirectives change f)

theorem directivesIn?_changeIn_of_ne (h : place ≠ other) (ms : List Directive × List α) :
    directivesIn? other (changeIn place change ms) = directivesIn? other ms := by
  cases place with
  | none =>
    cases other with
    | none => exact absurd rfl h
    | some name' => rfl
  | some name =>
    cases other with
    | none => rfl
    | some name' =>
      have hnames : name ≠ name' := fun hsame => h (congrArg some hsame)
      simp only [directivesIn?, changeIn,
        find?_onFirst_of_apart (hasName_mapDirectives name change) (hasName_of_ne hnames)]

theorem changeIn_changeIn (place : Option String) (change again : List Directive → List Directive)
    (ms : List Directive × List α) :
    changeIn place again (changeIn place change ms) =
      changeIn place (fun ds => again (change ds)) ms := by
  cases place with
  | none => rfl
  | some name =>
    simp only [changeIn, onFirst_onFirst (hasName_mapDirectives name change),
      Composed.mapDirectives_mapDirectives]

theorem changeIn_comm (h : place ≠ other) (ms : List Directive × List α) :
    changeIn place change (changeIn other again ms) =
      changeIn other again (changeIn place change ms) := by
  cases place with
  | none =>
    cases other with
    | none => exact absurd rfl h
    | some name' => rfl
  | some name =>
    cases other with
    | none => rfl
    | some name' =>
      have hnames : name ≠ name' := fun hsame => h (congrArg some hsame)
      simp only [changeIn, onFirst_comm (hasName_mapDirectives name change)
        (hasName_mapDirectives name' again) (hasName_of_ne hnames)]

end Member

namespace Definition

variable {place other : Option String} {change again : List Directive → List Directive}

/-- The directives at a place of a definition that can be edited. -/
def directivesAt? (place : Option String) : Definition → Option (List Directive)
  | .object body | .interface body => directivesIn? place (body.directives, body.fields)
  | .input body => directivesIn? place (body.directives, body.fields)
  | _ => none

/-- A definition with the directives at a place changed; one that cannot be edited stays as it
is. -/
def changeAt (place : Option String) (change : List Directive → List Directive) :
    Definition → Definition
  | .object body =>
    let ms := changeIn place change (body.directives, body.fields)
    .object { body with directives := ms.1, fields := ms.2 }
  | .interface body =>
    let ms := changeIn place change (body.directives, body.fields)
    .interface { body with directives := ms.1, fields := ms.2 }
  | .input body =>
    let ms := changeIn place change (body.directives, body.fields)
    .input { body with directives := ms.1, fields := ms.2 }
  | d => d

theorem isTarget_changeAt (type : String) (place : Option String)
    (change : List Directive → List Directive) (d : Definition) :
    (d.changeAt place change).isTarget type = d.isTarget type := by
  cases d <;> rfl

theorem directivesAt?_changeAt (place : Option String) (change : List Directive → List Directive)
    (d : Definition) :
    (d.changeAt place change).directivesAt? place = (d.directivesAt? place).map change := by
  cases d with
  | object body | interface body =>
    exact directivesIn?_changeIn place change (body.directives, body.fields)
  | input body => exact directivesIn?_changeIn place change (body.directives, body.fields)
  | _ => rfl

theorem directivesAt?_changeAt_of_ne (h : place ≠ other) (d : Definition) :
    (d.changeAt place change).directivesAt? other = d.directivesAt? other := by
  cases d with
  | object body | interface body =>
    exact directivesIn?_changeIn_of_ne h (body.directives, body.fields)
  | input body => exact directivesIn?_changeIn_of_ne h (body.directives, body.fields)
  | _ => rfl

theorem changeAt_changeAt (place : Option String) (change again : List Directive → List Directive)
    (d : Definition) :
    (d.changeAt place change).changeAt place again =
      d.changeAt place fun ds => again (change ds) := by
  cases d <;> simp only [changeAt, Prod.eta, changeIn_changeIn]

theorem changeAt_comm (h : place ≠ other) (d : Definition) :
    (d.changeAt other again).changeAt place change =
      (d.changeAt place change).changeAt other again := by
  cases d <;> simp only [changeAt, Prod.eta, changeIn_comm h]

end Definition

/-! ### Documents

An address leads first to a type and then to a place in it, so the lemmas of both levels follow
from those on the first of some items.
-/

namespace Document

variable {doc doc' : Document} {a b : Address} {change again : List Directive → List Directive}

/-- The directives at an address, if it leads somewhere. -/
def directivesAt? (doc : Document) (a : Address) : Option (List Directive) :=
  (doc.definitions.find? (Definition.isTarget a.type)).bind (Definition.directivesAt? a.field)

/-- A document with the directives at an address changed. -/
def changeAt (doc : Document) (a : Address) (change : List Directive → List Directive) : Document :=
  ⟨onFirst (Definition.isTarget a.type) (Definition.changeAt a.field change) doc.definitions⟩

theorem directivesAt?_changeAt (doc : Document) (a : Address)
    (change : List Directive → List Directive) :
    (doc.changeAt a change).directivesAt? a = (doc.directivesAt? a).map change := by
  simp only [directivesAt?, changeAt,
    find?_onFirst (Definition.isTarget_changeAt a.type a.field change)]
  cases doc.definitions.find? (Definition.isTarget a.type) with
  | none => rfl
  | some d => exact d.directivesAt?_changeAt a.field change

theorem directivesAt?_changeAt_of_ne (h : a ≠ b) (doc : Document) :
    (doc.changeAt a change).directivesAt? b = doc.directivesAt? b := by
  by_cases htype : a.type = b.type
  · have hfield : a.field ≠ b.field := fun hsame => h (Address.ext htype hsame)
    simp only [directivesAt?, changeAt, htype,
      find?_onFirst (Definition.isTarget_changeAt b.type a.field change)]
    cases doc.definitions.find? (Definition.isTarget b.type) with
    | none => rfl
    | some d => exact d.directivesAt?_changeAt_of_ne hfield
  · simp only [directivesAt?, changeAt,
      find?_onFirst_of_apart (Definition.isTarget_changeAt a.type a.field change)
        fun _ htarget => isTarget_eq_false_of_ne htarget (Ne.symm htype)]

/-- An address leads somewhere after a change if it did so before. -/
theorem isSome_directivesAt?_changeAt (doc : Document) (a b : Address)
    (change : List Directive → List Directive) :
    ((doc.changeAt a change).directivesAt? b).isSome = (doc.directivesAt? b).isSome := by
  by_cases hsame : a = b
  · rw [hsame, directivesAt?_changeAt, Option.isSome_map]
  · rw [directivesAt?_changeAt_of_ne hsame]

/-- **Changes at one address come to one change.** -/
theorem changeAt_changeAt (doc : Document) (a : Address)
    (change again : List Directive → List Directive) :
    (doc.changeAt a change).changeAt a again = doc.changeAt a fun ds => again (change ds) := by
  simp only [changeAt, onFirst_onFirst (Definition.isTarget_changeAt a.type a.field change),
    Definition.changeAt_changeAt]

/-- **Changes at different addresses can be made in any order.** -/
theorem changeAt_comm (h : a ≠ b) (doc : Document) :
    (doc.changeAt b again).changeAt a change = (doc.changeAt a change).changeAt b again := by
  by_cases htype : a.type = b.type
  · have hfield : a.field ≠ b.field := fun hsame => h (Address.ext htype hsame)
    simp only [changeAt, htype,
      onFirst_onFirst (Definition.isTarget_changeAt b.type a.field change),
      onFirst_onFirst (Definition.isTarget_changeAt b.type b.field again),
      Definition.changeAt_comm hfield]
  · simp only [changeAt, onFirst_comm (Definition.isTarget_changeAt a.type a.field change)
      (Definition.isTarget_changeAt b.type b.field again) fun _ htarget =>
        isTarget_eq_false_of_ne htarget (Ne.symm htype)]

end Document

/-! ### Edits -/

/-- The edit is about directives. -/
def Edit.IsOfDirectives : Edit → Prop
  | .addDirectives .. | .removeDirective .. => True
  | _ => False

/-- Where an edit is made. -/
def Edit.address (e : Edit) : Address := ⟨e.type, e.field?⟩

section Member

variable {α : Type} [Member α] [Composed α] {e : Edit} {ds : List Directive} {fields : List α}
  {ms : List Directive × List α}

/-- Directives of a field are changed if there is a field of the name. -/
theorem changeDirectives_eq_ok_iff {type name : String} {change : List Directive → List Directive} :
    (changeField type name (fun f => .ok [Member.mapDirectives change f]) fields >>= fun fs =>
        pure (ds, fs)) = .ok ms ↔
      (directivesIn? (some name) (ds, fields)).isSome = true ∧
        ms = changeIn (some name) change (ds, fields) := by
  rcases exists_splits (fun f => Member.name f = name) fields with
      hnone | ⟨before, f, behind, hfirst⟩
  · have hmissing : fields.find? (hasName name) = none := by simpa [hasName] using hnone
    rw [changeField_of_missing hnone]
    simp [directivesIn?, hmissing]
  · have hfirst' : Splits (fun f => hasName name f = true) fields before f behind :=
      ⟨hfirst.eq, by simpa [hasName] using hfirst.holds, by simpa [hasName] using hfirst.apart⟩
    rw [changeField_of_splitsAt hfirst]
    simp only [directivesIn?, find?_of_splits hfirst', changeIn, onFirst_of_splits hfirst']
    simp [Except.map, eq_comm]

/-- Directives are edited if there is something at the address, and then they are changed. -/
theorem editMembers_of_directives (h : e.IsOfDirectives) :
    editMembers e ds fields = .ok ms ↔
      (directivesIn? e.field? (ds, fields)).isSome = true ∧
        ms = changeIn e.field? e.change (ds, fields) := by
  cases e with
  | addDirectives type place names =>
    cases place with
    | none => simp [editMembers, directivesIn?, changeIn, Edit.field?, Edit.change, eq_comm]
    | some name => exact changeDirectives_eq_ok_iff
  | removeDirective type place directive =>
    cases place with
    | none => simp [editMembers, directivesIn?, changeIn, Edit.field?, Edit.change, eq_comm]
    | some name => exact changeDirectives_eq_ok_iff
  | _ => exact h.elim

end Member

theorem Definition.edit_of_directives {d d' : Definition} {e : Edit} (h : e.IsOfDirectives)
    (heditable : d.isEditable = true) :
    d.edit e = .ok d' ↔
      (d.directivesAt? e.field?).isSome = true ∧ d' = d.changeAt e.field? e.change := by
  have hmembers {α : Type} [Member α] [Composed α] {ds : List Directive} {fields : List α}
      (rebuild : List Directive × List α → Definition) :
      (editMembers e ds fields >>= fun ms => pure (rebuild ms)) = .ok d' ↔
        (directivesIn? e.field? (ds, fields)).isSome = true ∧
          d' = rebuild (changeIn e.field? e.change (ds, fields)) := by
    constructor
    · intro hedit
      obtain ⟨ms, hok, hedit⟩ := Outcome.of_bind_eq_ok hedit
      obtain ⟨hsome, rfl⟩ := (editMembers_of_directives h).1 hok
      cases hedit
      exact ⟨hsome, rfl⟩
    · rintro ⟨hsome, rfl⟩
      rw [(editMembers_of_directives h).2 ⟨hsome, rfl⟩]
      rfl
  cases d with
  | object body => exact hmembers fun ms => .object { body with directives := ms.1, fields := ms.2 }
  | interface body =>
    exact hmembers fun ms => .interface { body with directives := ms.1, fields := ms.2 }
  | input body => exact hmembers fun ms => .input { body with directives := ms.1, fields := ms.2 }
  | _ => cases heditable

/-- **An edit of directives can be made if its address leads somewhere (`directivesAt?`), and
changes the directives there (`changeAt`).** -/
theorem Document.edit_of_directives {doc doc' : Document} {e : Edit} (h : e.IsOfDirectives) :
    doc.edit e = .ok doc' ↔
      (doc.directivesAt? e.address).isSome = true ∧ doc' = doc.changeAt e.address e.change := by
  rcases exists_splits (fun d => d.isTarget e.type = true) doc.definitions with
    hnone | ⟨before, d, behind, hfirst⟩
  · have hmissing :
        doc.definitions.find? (Definition.isTarget e.type) = none := by simpa using hnone
    rw [Document.edit, editDefinitions_of_none hnone]
    simp [directivesAt?, Edit.address, hmissing, Except.map]
  · have hfound := find?_of_splits hfirst
    rw [Document.edit, editDefinitions_of_splits hfirst]
    simp only [directivesAt?, Edit.address, hfound, Option.bind_some, changeAt,
      onFirst_of_splits hfirst]
    constructor
    · intro hedit
      obtain ⟨ds, hdefinitions, rfl⟩ := Outcome.of_map_eq_ok hedit
      obtain ⟨d', hone, rfl⟩ := Outcome.of_map_eq_ok hdefinitions
      obtain ⟨hthere, rfl⟩ := (Definition.edit_of_directives h hfirst.isEditable).1 hone
      exact ⟨hthere, rfl⟩
    · rintro ⟨hthere, rfl⟩
      rw [(Definition.edit_of_directives h hfirst.isEditable).2 ⟨hthere, rfl⟩]
      rfl

end SchemaLoom.Sdl
