/-
Reading plain declarations.

Plain declarations have no descriptions, no default values, and only directives without
arguments.  For each kind of node there is the token sequence that it is written as, such as
`fieldTokens` for a field, and the claim that its reader takes just these tokens, here
`takes_field`.

What a node may be followed by is part of the claim.  A field ends in front of `Ends`, a
definition in front of `Begins`, and a sequence of definitions is taken if each is followed by
what it may be (`Adjacent`).  The proofs on what was generated use nothing but
`Document.parse_eq`.
-/
import Mathlib.Data.List.Chain
import SchemaLoom.Proofs.Sdl.Lexing
import SchemaLoom.Proofs.Sdl.Reading
import SchemaLoom.Sdl.Edit

namespace SchemaLoom.Sdl

/-! ### Types

The required mark stands behind the type that it belongs to.  So a type is read in two steps, and
the second one must not find a mark if the type has none.
-/

/-- The name that a type reference is made of. -/
def TypeRef.base : TypeRef → String
  | .named n => n
  | .list item => item.base
  | .nonNull inner => inner.base

/-- The tokens of a type reference. -/
def TypeRef.tokens : TypeRef → List Token
  | .named n => [.name n]
  | .list item => .punctuator .bracketLeft :: (item.tokens ++ [.punctuator .bracketRight])
  | .nonNull inner => inner.tokens ++ [.punctuator .bang]

/-- The type reference can be written within so many levels: no required mark stands behind another
one, and lists do not nest deeper. -/
def TypeRef.Fits : Nat → TypeRef → Prop
  | _, .named _ => True
  | 0, .list _ => False
  | room + 1, .list item => item.Fits room
  | room, .nonNull inner => inner.Fits room ∧ ∀ other, inner ≠ .nonNull other

/-- A type reference starts with a name or an opening bracket. -/
theorem TypeRef.tokens_start (t : TypeRef) :
    (∃ n rest, t.tokens = .name n :: rest) ∨
      ∃ rest, t.tokens = .punctuator .bracketLeft :: rest := by
  induction t with
  | named n => exact Or.inl ⟨n, [], rfl⟩
  | list item => exact Or.inr ⟨_, rfl⟩
  | nonNull inner ih =>
    unfold TypeRef.tokens
    rcases ih with ⟨n, rest, h⟩ | ⟨rest, h⟩
    · exact Or.inl ⟨n, rest ++ [.punctuator .bang], by rw [h, List.cons_append]⟩
    · exact Or.inr ⟨rest ++ [.punctuator .bang], by rw [h, List.cons_append]⟩

theorem Token.isValid_name (n : String) : (Token.name n).IsValid := by
  intro fault h
  cases h

theorem Token.isValid_punctuator (m : Punctuator) : (Token.punctuator m).IsValid := by
  intro fault h
  cases h

namespace Reader

/-- Behind a type no required mark may stand. -/
def AfterType (t : Token) : Prop := t.IsValid ∧ t ≠ .punctuator .bang

/-- The tokens that may follow a plain field: another one, or the end of the list of fields. -/
def Ends : Token → Prop
  | .name _ | .punctuator .parenRight | .punctuator .braceRight | .eof => True
  | _ => False

theorem Ends.isValid {t : Token} (h : Ends t) : t.IsValid := by
  rintro fault rfl
  exact h

theorem Ends.ne_mark {t : Token} (h : Ends t) {m : Punctuator} (hm : ¬ Ends (.punctuator m)) :
    t ≠ .punctuator m := by
  rintro rfl
  exact hm h

theorem Ends.afterType {t : Token} (h : Ends t) : AfterType t :=
  ⟨h.isValid, h.ne_mark fun h => h⟩

theorem leads_typeRef (t : TypeRef) (us : List Token) (last : Token → Prop) :
    Leads (t.tokens ++ us) last Token.IsValid := by
  rcases t.tokens_start with ⟨n, rest, h⟩ | ⟨rest, h⟩
  · rw [h]
    exact leads_cons (Token.isValid_name n)
  · rw [h]
    exact leads_cons (Token.isValid_punctuator _)

/-- A type reference in front of its required mark. -/
def nullableWithin (room : Nat) : Reader TypeRef := do
  if ← optionalMark .bracketLeft then
    match room with
    | 0 => throw .nestedTooDeeply
    | room + 1 =>
      let item ← typeRefWithin room
      mark .bracketRight
      return .list item
  else return .named (← name)

/-- A type reference with the required mark behind it, if there is one. -/
def marked (inner : TypeRef) : Reader TypeRef := do
  if ← optionalMark .bang then return .nonNull inner else return inner

theorem typeRefWithin_eq (room : Nat) : typeRefWithin room = nullableWithin room >>= marked := by
  unfold typeRefWithin nullableWithin
  rw [bind_assoc]
  congr 1
  funext isList
  cases isList with
  | false => simp [marked]
  | true =>
    cases room with
    | zero => rfl
    | succ room => simp [marked]

theorem takes_unmarked (inner : TypeRef) : Takes (marked inner) [] inner AfterType := by
  unfold marked
  refine (takes_no_mark .bang).after ?_ (leads_nil fun _ h => h.2)
  exact takes_pure inner _

theorem takes_marked (inner : TypeRef) :
    Takes (marked inner) [.punctuator .bang] inner.nonNull Token.IsValid := by
  unfold marked
  exact (takes_optionalMark .bang).bind (takes_pure inner.nonNull _) (leads_nil fun _ h => h)

theorem takes_nullableWithin_named (room : Nat) (n : String) :
    Takes (nullableWithin room) [.name n] (.named n) Token.IsValid := by
  unfold nullableWithin
  refine (takes_no_mark .bracketLeft).after ?_ (leads_cons fun h => nomatch h)
  exact (takes_name n).thenPure TypeRef.named

theorem takes_nullableWithin_list {room : Nat} {item : TypeRef}
    (hitem : Takes (typeRefWithin room) item.tokens item AfterType) :
    Takes (nullableWithin (room + 1)) (TypeRef.list item).tokens (.list item) Token.IsValid := by
  unfold nullableWithin TypeRef.tokens
  refine (takes_optionalMark .bracketLeft).first ?_ (leads_typeRef item _ _)
  refine hitem.bind ?_ (leads_cons ⟨Token.isValid_punctuator _, fun h => nomatch h⟩)
  exact (takes_mark .bracketRight).bind (takes_pure item.list _) (leads_nil fun _ h => h)

/-- A type reference without a required mark, and one with it, are read from the same part. -/
theorem takes_typeRefWithin_of_nullable {room : Nat} {t : TypeRef}
    (h : Takes (nullableWithin room) t.tokens t Token.IsValid) :
    Takes (typeRefWithin room) t.tokens t AfterType ∧
      Takes (typeRefWithin room) t.nonNull.tokens t.nonNull AfterType := by
  rw [typeRefWithin_eq]
  constructor
  · simpa using h.bind (takes_unmarked t) (leads_nil fun _ h => h.1)
  · have both := h.bind (takes_marked t) (leads_cons (Token.isValid_punctuator .bang))
    exact both.weaken fun _ h => h.1

/-- **A type reference is read back from its tokens.** -/
theorem takes_typeRefWithin (t : TypeRef) :
    ∀ room, t.Fits room → Takes (typeRefWithin room) t.tokens t AfterType := by
  -- The part in front of a required mark is read by a reader of its own.
  have both : ∀ room, t.Fits room → Takes (typeRefWithin room) t.tokens t AfterType ∧
      ((∀ other, t ≠ .nonNull other) → Takes (nullableWithin room) t.tokens t Token.IsValid) := by
    induction t with
    | named n =>
      intro room _
      have nullable := takes_nullableWithin_named room n
      exact ⟨(takes_typeRefWithin_of_nullable nullable).1, fun _ => nullable⟩
    | list item ih =>
      intro room hfits
      cases room with
      | zero => exact hfits.elim
      | succ room =>
        have nullable := takes_nullableWithin_list (ih room hfits).1
        exact ⟨(takes_typeRefWithin_of_nullable nullable).1, fun _ => nullable⟩
    | nonNull inner ih =>
      intro room hfits
      have parts : inner.Fits room ∧ ∀ other, inner ≠ .nonNull other := by
        cases room <;> exact hfits
      have nullable := (ih room parts.1).2 parts.2
      exact ⟨(takes_typeRefWithin_of_nullable nullable).2, fun h => absurd rfl (h inner)⟩
  exact fun room hfits => (both room hfits).1

/-! ### Directives -/

/-- A directive without arguments. -/
def bare (n : String) : Directive := ⟨n, []⟩

/-- The tokens of directives without arguments. -/
def markTokens (names : List String) : List Token :=
  names.flatMap fun n => [.punctuator .at, .name n]

theorem leads_markTokens (names : List String) :
    Leads (markTokens names) Ends AfterType := by
  cases names with
  | nil => exact leads_nil fun _ h => h.afterType
  | cons n names => exact leads_cons ⟨Token.isValid_punctuator _, fun h => nomatch h⟩

theorem takes_arguments_none (isConstant : Bool) (room : Nat) :
    Takes (arguments isConstant room) [] [] fun t => t ≠ .punctuator .parenLeft :=
  takes_optionalBetween_nil

/-- What may follow a directive without arguments. -/
def AfterMark (t : Token) : Prop := t.IsValid ∧ t ≠ .punctuator .parenLeft

theorem takes_directives (names : List String) :
    Takes (directives true) (markTokens names) (names.map bare)
      fun t => t ≠ .punctuator .at ∧ AfterMark t := by
  have hrepeats : Repeats
      (do
        mark .at
        let n ← name
        return ⟨n, ← arguments true nestingLimit⟩)
      (fun d : Directive => [.punctuator .at, .name d.name]) AfterMark (names.map bare) := by
    refine ⟨?_, by simp, ?_⟩
    · intro d hd
      obtain ⟨n, -, rfl⟩ := List.mem_map.1 hd
      refine (takes_mark .at).first ?_ (leads_cons (Token.isValid_name n))
      refine (takes_name n).first ?_ (leads_nil fun _ h => h.1)
      refine (takes_arguments_none true nestingLimit).after ?_ (leads_nil fun _ h => h.2)
      exact takes_pure (bare n) _
    · intro d _ t ht
      cases ht
      exact ⟨Token.isValid_punctuator _, fun h => nomatch h⟩
  have all : Takes (directives true)
      ((names.map bare).flatMap fun d => [.punctuator .at, .name d.name]) (names.map bare)
      fun t => t ≠ .punctuator .at ∧ AfterMark t := by
    refine takes_whileNext (fun t h => ⟨by simpa using h.1, h.2⟩) rfl hrepeats ?_
    intro d _ t ht
    cases ht
    rfl
  rw [List.flatMap_map] at all
  exact all

theorem takes_directives_ends (names : List String) :
    Takes (directives true) (markTokens names) (names.map bare) Ends :=
  (takes_directives names).weaken fun _ h =>
    ⟨Ends.ne_mark h fun h => h, Ends.isValid h, Ends.ne_mark h fun h => h⟩

/-! ### Fields -/

theorem takes_description_none :
    Takes optionalDescription [] none fun t => isDescription t = false := by
  unfold optionalDescription
  refine takes_peek_nil ?_
  intro t ht
  have hnone : isDescription t = false := by
    rcases ht with rfl | ht
    · rfl
    · exact ht
  cases t with
  | string text => cases hnone
  | blockString text => cases hnone
  | _ => exact takes_pure none _

theorem takes_default_none : Takes optionalDefault [] none fun t => t ≠ .punctuator .equals := by
  unfold optionalDefault
  refine (takes_no_mark .equals).after ?_ (leads_nil fun _ h => h)
  exact takes_pure none _

/-- An input field that is a name and a type. -/
def plainInput (entry : String × TypeRef) : InputField := ⟨none, entry.1, entry.2, none, []⟩

/-- The tokens of an input field that is a name and a type. -/
def inputTokens (f : InputField) : List Token := .name f.name :: .punctuator .colon :: f.type.tokens

theorem takes_inputField {entry : String × TypeRef} (hfits : entry.2.Fits nestingLimit) :
    Takes inputField (inputTokens (plainInput entry)) (plainInput entry) Ends := by
  have htype := takes_typeRefWithin entry.2 nestingLimit hfits
  unfold inputField inputTokens
  refine takes_description_none.after ?_ (leads_cons rfl)
  refine (takes_name entry.1).first ?_ (leads_cons (Token.isValid_punctuator _))
  refine (takes_mark .colon).first ?_ ?_
  · show Takes (typeRef >>= _) entry.2.tokens _ _
    rw [← List.append_nil entry.2.tokens]
    refine htype.bind ?_ (leads_nil fun _ h => Ends.afterType h)
    refine takes_default_none.after ?_ (leads_nil fun _ h => Ends.ne_mark h fun h => h)
    refine (takes_directives_ends []).after ?_ (leads_nil fun _ h => h)
    exact takes_pure (plainInput entry) _
  · rw [← List.append_nil (plainInput entry).type.tokens]
    exact leads_typeRef entry.2 [] _

theorem repeats_inputField {entries : List (String × TypeRef)}
    (hfits : ∀ e ∈ entries, e.2.Fits nestingLimit) :
    Repeats inputField inputTokens Ends (entries.map plainInput) := by
  refine ⟨?_, fun _ _ h => (nomatch h), ?_⟩
  · intro f hf
    obtain ⟨e, he, rfl⟩ := List.mem_map.1 hf
    exact takes_inputField (hfits e he)
  · intro f _ t ht
    cases ht
    trivial

/-- The tokens of arguments, which have no parentheses if there are none. -/
def argumentTokens : List InputField → List Token
  | [] => []
  | fs => .punctuator .parenLeft :: (fs.flatMap inputTokens ++ [.punctuator .parenRight])

/-- What may follow optional arguments. -/
theorem takes_argumentDefinitions {entries : List (String × TypeRef)}
    (hfits : ∀ e ∈ entries, e.2.Fits nestingLimit) :
    Takes (optionalBetween .parenLeft .parenRight inputField)
      (argumentTokens (entries.map plainInput)) (entries.map plainInput) AfterMark := by
  have hrepeats := repeats_inputField hfits
  cases entries with
  | nil => exact takes_optionalBetween_nil.weaken fun _ h => h.2
  | cons e entries =>
    have all := takes_optionalBetween .parenLeft .parenRight trivial
      hrepeats (by
        intro f _ t ht
        cases ht
        exact fun h => nomatch h) fun _ h => Ends.isValid h
    exact all.weaken fun _ h => h.1

/-- A field that has plain arguments, a type and directives without arguments. -/
def plainField (n : String) (arguments : List (String × TypeRef)) (type : TypeRef)
    (marks : List String) : Field :=
  ⟨none, n, arguments.map plainInput, type, marks.map bare⟩

/-- The tokens of such a field. -/
def fieldTokens (f : Field) : List Token :=
  .name f.name :: (argumentTokens f.arguments ++
    .punctuator .colon :: (f.type.tokens ++ markTokens (f.directives.map (·.name))))

theorem takes_field {n : String} {arguments : List (String × TypeRef)} {type : TypeRef}
    {marks : List String} (harguments : ∀ e ∈ arguments, e.2.Fits nestingLimit)
    (hfits : type.Fits nestingLimit) :
    Takes field (fieldTokens (plainField n arguments type marks))
      (plainField n arguments type marks) Ends := by
  have htype := takes_typeRefWithin type nestingLimit hfits
  have hmarks : (plainField n arguments type marks).directives.map (·.name) = marks := by
    simp [plainField, Function.comp_def, bare]
  unfold field fieldTokens
  rw [hmarks]
  refine takes_description_none.after ?_ (leads_cons rfl)
  refine (takes_name n).first ?_ ?_
  · refine (takes_argumentDefinitions harguments).bind ?_
      (leads_cons ⟨Token.isValid_punctuator _, fun h => nomatch h⟩)
    refine (takes_mark .colon).first ?_ (leads_typeRef type _ _)
    refine htype.bind ?_ (leads_markTokens marks)
    exact (takes_directives_ends marks).thenPure
      fun ds => (⟨none, n, arguments.map plainInput, type, ds⟩ : Field)
  · cases arguments with
    | nil => exact leads_cons (Token.isValid_punctuator _)
    | cons e arguments => exact leads_cons (Token.isValid_punctuator _)

/-! ### Definitions

A definition without members ends where the next one begins, as no keyword is taken for an opening
brace.
-/

/-- The tokens that may follow a plain definition: the keyword of the next one, or the end. -/
def Begins : Token → Prop
  | .name n => n ≠ "implements"
  | .eof => True
  | _ => False

theorem Begins.ends {t : Token} (h : Begins t) : Ends t := by
  cases t with
  | name n => trivial
  | eof => trivial
  | _ => exact h.elim

/-- The tokens of members in braces; without members there are none. -/
def blockTokens {α : Type} (tokens : α → List Token) : List α → List Token
  | [] => []
  | as => .punctuator .braceLeft :: (as.flatMap tokens ++ [.punctuator .braceRight])

theorem leads_blockTokens (tokens : α → List Token) (as : List α) :
    Leads (blockTokens tokens as) Begins fun t => t.IsValid ∧ t ≠ .name "implements" ∧
      t ≠ .punctuator .at ∧ t ≠ .punctuator .parenLeft := by
  cases as with
  | nil =>
    refine leads_nil fun t h => ⟨h.ends.isValid, ?_, h.ends.ne_mark fun h => h,
      h.ends.ne_mark fun h => h⟩
    rintro rfl
    exact h rfl
  | cons a as =>
    exact leads_cons ⟨Token.isValid_punctuator _, by simp, by simp, by simp⟩

theorem takes_block {item : Reader α} {tokens : α → List Token} {as : List α}
    (hrepeats : Repeats item tokens Ends as)
    (hopen : ∀ a ∈ as, ∀ t ∈ (tokens a).head?, t ≠ .punctuator .braceRight) :
    Takes (optionalBetween .braceLeft .braceRight item) (blockTokens tokens as) as Begins := by
  cases as with
  | nil => exact takes_optionalBetween_nil.weaken fun _ h => h.ends.ne_mark fun h => h
  | cons a as =>
    have all := takes_optionalBetween .braceLeft .braceRight trivial
      hrepeats (fun b hb => hopen b (by simp [hb])) fun _ h => Ends.isValid h
    exact all.weaken fun _ h => h.ends.isValid

theorem takes_interfaces_none : Takes interfaces [] [] fun t => t ≠ .name "implements" := by
  unfold interfaces
  refine (takes_no_keyword "implements").after ?_ (leads_nil fun _ h => h)
  exact takes_pure [] _

/-- Directives that are not there, in front of members in braces. -/
theorem takes_directives_in_front :
    Takes (directives true) [] [] fun t => t.IsValid ∧ t ≠ .name "implements" ∧
      t ≠ .punctuator .at ∧ t ≠ .punctuator .parenLeft :=
  (takes_directives []).weaken fun _ h => ⟨h.2.2.1, h.1, h.2.2.2⟩

/-- An object type that has a name and fields alone. -/
def plainObject (n : String) (fields : List Field) : ObjectType := ⟨none, n, [], [], fields⟩

/-- An input type that has a name and fields alone. -/
def plainInputType (n : String) (fields : List InputField) : InputType := ⟨none, n, [], fields⟩

/-- An enum type that has a name and values alone. -/
def plainEnum (n : String) (values : List String) : EnumType :=
  ⟨none, n, [], values.map fun v => ⟨none, v, []⟩⟩

theorem takes_objectBody (n : String) {fields : List Field}
    (hrepeats : Repeats field fieldTokens Ends fields) :
    Takes (objectBody none) (.name n :: blockTokens fieldTokens fields) (plainObject n fields)
      Begins := by
  have hleads := leads_blockTokens fieldTokens fields
  unfold objectBody
  refine (takes_name n).first ?_ ⟨fun t h => (hleads.1 t h).1, fun h t ht => (hleads.2 h t ht).1⟩
  refine takes_interfaces_none.after ?_
    ⟨fun t h => (hleads.1 t h).2.1, fun h t ht => (hleads.2 h t ht).2.1⟩
  refine takes_directives_in_front.after ?_ hleads
  refine (takes_block hrepeats ?_).thenPure fun fields => plainObject n fields
  intro f _ t ht
  cases ht
  exact fun h => nomatch h

theorem takes_inputBody (n : String) {fields : List InputField}
    (hrepeats : Repeats inputField inputTokens Ends fields) :
    Takes (inputBody none) (.name n :: blockTokens inputTokens fields) (plainInputType n fields)
      Begins := by
  have hleads := leads_blockTokens inputTokens fields
  unfold inputBody
  refine (takes_name n).first ?_ ⟨fun t h => (hleads.1 t h).1, fun h t ht => (hleads.2 h t ht).1⟩
  refine takes_directives_in_front.after ?_ hleads
  refine (takes_block hrepeats ?_).thenPure fun fields => plainInputType n fields
  intro f _ t ht
  cases ht
  exact fun h => nomatch h

/-- The token of a value of an enum type. -/
def valueTokens (v : EnumValue) : List Token := [.name v.name]

/-- The names that no value of an enum type may have. -/
def reservedValues : List String := ["true", "false", "null"]

theorem takes_enumValue {v : String} (hfree : v ∉ reservedValues) :
    Takes enumValue [.name v] ⟨none, v, []⟩ Ends := by
  have hallowed : (["true", "false", "null"].any ((Token.name v).value? = some ·)) = false := by
    simp only [reservedValues, List.mem_cons, List.not_mem_nil, or_false, not_or] at hfree
    simp [Token.value?, hfree]
  unfold enumValue
  refine takes_description_none.after ?_ (leads_cons rfl)
  refine takes_peek_cons ?_
  rw [hallowed]
  refine (takes_name v).first ?_ (leads_nil fun _ h => Ends.isValid h)
  exact (takes_directives_ends []).thenPure fun ds => (⟨none, v, ds⟩ : EnumValue)

theorem takes_enumBody (n : String) {values : List String}
    (hfree : ∀ v ∈ values, v ∉ reservedValues) :
    Takes (enumBody none) (.name n :: blockTokens valueTokens (plainEnum n values).values)
      (plainEnum n values) Begins := by
  have hleads := leads_blockTokens valueTokens (plainEnum n values).values
  have hrepeats : Repeats enumValue valueTokens Ends (plainEnum n values).values := by
    refine ⟨?_, fun _ _ h => (nomatch h), ?_⟩
    · intro v hv
      obtain ⟨w, hw, rfl⟩ := List.mem_map.1 hv
      exact takes_enumValue (hfree w hw)
    · intro v _ t ht
      cases ht
      trivial
  unfold enumBody
  refine (takes_name n).first ?_ ⟨fun t h => (hleads.1 t h).1, fun h t ht => (hleads.2 h t ht).1⟩
  refine takes_directives_in_front.after ?_ hleads
  refine (takes_block hrepeats ?_).thenPure fun vs => (⟨none, n, [], vs⟩ : EnumType)
  intro v _ t ht
  cases ht
  exact fun h => nomatch h

/-- A type definition is read by what its keyword announces. -/
theorem takes_definition {word : String} {body : Reader Definition} {ts : List Token}
    {d : Definition} {next : Token → Prop} (hword : typeDefinition? none word = some body)
    (hbody : Takes body ts d next) (hleads : Leads ts next Token.IsValid) :
    Takes definition (.name word :: ts) d next := by
  unfold definition
  refine takes_peek_cons ?_
  show Takes (definitionNamed false word (.name word)) _ _ _
  unfold definitionNamed
  rw [hword]
  refine takes_description_none.after ?_ (leads_cons rfl)
  refine (takes_advance (.name word)).first ?_ hleads
  rw [hword]
  exact hbody

theorem takes_peekSecond {f : Token → Reader β} {t u : Token} {ts : List Token} {b : β}
    {next : Token → Prop} (hvalid : u.IsValid) (h : Takes (f u) (t :: u :: ts) b next) :
    Takes (peekSecond >>= f) (t :: u :: ts) b next := by
  intro bound rest hrest hbound
  refine Eq.trans ?_ (h bound rest hrest hbound)
  cases u with
  | invalid fault => exact absurd rfl (hvalid fault)
  | _ => rfl

/-- An extension is read by what the keyword behind `extend` announces. -/
theorem takes_extension {word : String} {body : Reader Definition} {ts : List Token}
    {d : Definition} {next : Token → Prop} (hword : extension? word = some body)
    (hbody : Takes body ts d next) (hleads : Leads ts next Token.IsValid) :
    Takes definition (.name "extend" :: .name word :: ts) d next := by
  unfold definition
  refine takes_peek_cons ?_
  show Takes extension _ _ _
  unfold extension
  refine takes_peekSecond (Token.isValid_name word) ?_
  simp only [hword]
  refine (takes_advance (.name "extend")).first ?_ (leads_cons (Token.isValid_name word))
  exact (takes_advance (.name word)).first hbody hleads

/-- What is needed of definitions to be taken one after the other: each of them ends in front of the
first token of the next one, and of the end of a text. -/
structure Adjacent (tokens : Definition → List Token) (ends : Definition → Token → Prop)
    (ds : List Definition) : Prop where
  takes : ∀ d ∈ ds, Takes definition (tokens d) d (ends d)
  starts : ∀ d ∈ ds, ∃ t ∈ (tokens d).head?, t.IsValid ∧ t ≠ .eof
  last : ∀ d ∈ ds, ends d .eof
  meets : ds.IsChain fun d e => ∀ t ∈ (tokens e).head?, ends d t

variable {tokens : Definition → List Token} {ends : Definition → Token → Prop}

theorem Adjacent.tail {d : Definition} {ds : List Definition} (h : Adjacent tokens ends (d :: ds)) :
    Adjacent tokens ends ds where
  takes e he := h.takes e (List.mem_cons_of_mem _ he)
  starts e he := h.starts e (List.mem_cons_of_mem _ he)
  last e he := h.last e (List.mem_cons_of_mem _ he)
  meets := h.meets.tail

/-- Definitions that all end in front of the same tokens, with one of which each of them starts. -/
theorem Repeats.adjacent {ds : List Definition} (h : Repeats definition tokens Begins ds)
    (hstart : ∀ d ∈ ds, ∀ t ∈ (tokens d).head?, t ≠ .eof) :
    Adjacent tokens (fun _ => Begins) ds where
  takes := h.takes
  starts d hd := by
    cases htokens : tokens d with
    | nil => exact absurd htokens (h.nonempty d hd)
    | cons t ts =>
      have hfirst : t ∈ (tokens d).head? := by rw [htokens]; rfl
      exact ⟨t, rfl, (h.starts d hd t hfirst).ends.isValid, hstart d hd t hfirst⟩
  last _ _ := trivial
  meets := (List.pairwise_of_forall_mem_list fun _ _ e he => h.starts e he).isChain

/-- **Definitions up to the end of a text are taken one after the other.** -/
theorem takes_definitions : ∀ (ds : List Definition) (bound : Nat), ds ≠ [] → ds.length < bound →
    Adjacent tokens ends ds →
      Takes (definitionsWithin bound) (ds.flatMap tokens) ds fun t => t = .eof := by
  intro ds
  induction ds with
  | nil => exact fun _ h => absurd rfl h
  | cons d ds ih =>
    intro bound _ hbound hadjacent
    obtain ⟨more, rfl⟩ : ∃ more, bound = more + 1 := ⟨bound - 1, by simp at hbound; omega⟩
    have first := hadjacent.takes d (by simp)
    unfold definitionsWithin
    rw [List.flatMap_cons]
    cases ds with
    | nil =>
      refine first.bind (takes_peek_nil fun t ht => ?_) (leads_nil ?_)
      · rw [if_pos (ht.elim id id)]
        exact takes_pure [d] _
      · rintro t rfl
        exact hadjacent.last d (by simp)
    | cons e ds =>
      have others := ih more (by simp) (by simp at hbound ⊢; omega) hadjacent.tail
      obtain ⟨t, hfirst, -, hnext⟩ := hadjacent.starts e (by simp)
      -- The first definition ends where the second one begins, with a token that is not the end.
      have hmeets : ends d t := (List.isChain_cons_cons.1 hadjacent.meets).1 t hfirst
      cases htokens : tokens e with
      | nil =>
        rw [htokens] at hfirst
        cases hfirst
      | cons u us =>
        rw [htokens] at hfirst
        cases hfirst
        rw [List.flatMap_cons, htokens, List.cons_append] at others ⊢
        refine first.bind (takes_peek_cons ?_) (leads_cons hmeets)
        rw [if_neg hnext]
        exact others.thenPure (d :: ·)

/-- A text is read as its tokens are. -/
theorem run_of_lex {text : String} {tokens : List Token} (hlex : lex text.toList = tokens)
    (hstart : ∀ t ∈ tokens.head?, t.IsValid) (r : Reader α) :
    run r text = (r (tokens.length + 1) tokens).map (·.1) := by
  unfold run
  rw [hlex]
  split
  · next fault _ => exact absurd rfl (hstart _ rfl fault)
  · rfl

/-- **A reader that takes all tokens of a text reads the text** (`Takes`, at the end of the text).
-/
theorem run_eq {r : Reader α} {text : String} {ts : List Token} {a : α}
    (hlex : lex text.toList = ts ++ [Token.eof]) (htakes : Takes r ts a fun t => t = .eof)
    (hstart : ∀ t ∈ ts.head?, t.IsValid) : run r text = .ok a := by
  have hread := htakes ((ts ++ [Token.eof]).length + 1) [.eof] (by simp) (Nat.lt_succ_self _)
  rw [run_of_lex hlex ?_ r, hread]
  · rfl
  · intro t ht
    cases ts with
    | nil =>
      cases ht
      exact fun _ h => nomatch h
    | cons u ts => exact hstart t ht

end Reader

section Document

variable {text : String} {ds : List Definition} {tokens : Definition → List Token}
  {ends : Definition → Token → Prop}

theorem Reader.Adjacent.head (hsome : ds ≠ []) (h : Reader.Adjacent tokens ends ds) :
    ∃ t ∈ (ds.flatMap tokens).head?, t.IsValid ∧ t ≠ .eof := by
  cases ds with
  | nil => exact absurd rfl hsome
  | cons d ds =>
    obtain ⟨t, ht, hkind⟩ := h.starts d (by simp)
    refine ⟨t, ?_, hkind⟩
    rw [List.flatMap_cons, List.head?_append, Option.mem_def.1 ht]
    rfl

/-- A text of definitions is read as they are. -/
theorem Document.parseStrict_eq (hsome : ds ≠ [])
    (hlex : lex text.toList = ds.flatMap tokens ++ [.eof])
    (hadjacent : Reader.Adjacent tokens ends ds) : Document.parseStrict text = .ok ⟨ds⟩ := by
  have hnonempty : ∀ d ∈ ds, tokens d ≠ [] := by
    intro d hd hnone
    obtain ⟨t, ht, -⟩ := hadjacent.starts d hd
    rw [hnone] at ht
    cases ht
  have htakes : Reader.Takes (do return ⟨← Reader.definitions⟩) (ds.flatMap tokens)
      (⟨ds⟩ : Document) fun t => t = .eof := by
    unfold Reader.definitions
    refine (Reader.takes_read fun bound hbound => ?_).thenPure Document.mk
    have := Reader.length_le_length_flatMap hnonempty
    exact Reader.takes_definitions ds bound hsome (by omega) hadjacent
  refine Reader.run_eq hlex htakes fun t ht => ?_
  obtain ⟨u, hu, hvalid, -⟩ := hadjacent.head hsome
  cases Option.mem_unique ht hu
  exact hvalid

/-- **A text of definitions is a document**, if each of them ends where the next begins
(`Adjacent`). -/
theorem Document.parse_eq (hsome : ds ≠ [])
    (hlex : lex text.toList = ds.flatMap tokens ++ [.eof])
    (hadjacent : Reader.Adjacent tokens ends ds) : Document.parse text = .ok ⟨ds⟩ := by
  have htext : Text.isBlank text = false := by
    rw [Bool.eq_false_iff]
    intro hblank
    obtain ⟨t, ht, hkind⟩ := lex_of_isBlank (List.all_eq_true.1 hblank)
    obtain ⟨u, hu, hvalid, hmore⟩ := hadjacent.head hsome
    rw [hlex, List.head?_append, Option.mem_def.1 hu] at ht
    cases ht
    rcases hkind with heof | ⟨fault, hfault⟩
    · exact hmore heof
    · exact hvalid fault hfault
  unfold Document.parse
  rw [if_neg (by simp [htext])]
  exact Document.parseStrict_eq hsome hlex hadjacent

end Document

end SchemaLoom.Sdl
