/-
What is read consists of names.

Dividing a text makes name tokens only of names, and readers take the names of what they return
from such tokens.  So in every document that was read, types, fields and the types of fields have
names of the language (`Document.isNamed_of_parse`).

A reader yields values of some kind if it returns such a value whenever the tokens it is given
are ones that a text divides into, and leaves such tokens behind (`Yields`).  Most readers take
no name that matters here, and for them only the second half is needed (`Passes`).

The lemmas follow the readers one by one.  Repetitions are handled once, in the section before
the productions, so that a production is the sequence of its parts.
-/
import SchemaLoom.Proofs.Sdl.Plain
import SchemaLoom.Proofs.Sdl.Readable

namespace SchemaLoom.Sdl

variable {α β : Type}

/-! ### Nodes -/

/-- The input field and its type have names of the language. -/
structure InputField.IsNamed (f : InputField) : Prop where
  name : isName f.name = true
  base : isName f.type.base = true

/-- The field and its type have names of the language. -/
structure Field.IsNamed (f : Field) : Prop where
  name : isName f.name = true
  base : isName f.type.base = true

/-- The definition has names of the language for itself and for its fields. -/
def Definition.IsNamed : Definition → Prop
  | .object body | .interface body | .objectExtension body | .interfaceExtension body =>
    isName body.name = true ∧ ∀ f ∈ body.fields, f.IsNamed
  | .input body | .inputExtension body => isName body.name = true ∧ ∀ f ∈ body.fields, f.IsNamed
  | .enum body | .enumExtension body => isName body.name = true
  | _ => True

/-- All definitions of the document have names of the language. -/
def Document.IsNamed (doc : Document) : Prop := ∀ d ∈ doc.definitions, d.IsNamed

namespace Reader

/-! ### Yielding -/

/-- The reader `r` returns values with `P`, and passes on tokens that a text divides into. -/
def Yields (r : Reader α) (P : α → Prop) : Prop :=
  ∀ bound ts a rest, (∀ t ∈ ts, t.IsReadable) → r bound ts = .ok (a, rest) →
    P a ∧ ∀ t ∈ rest, t.IsReadable

/-- The reader `r` passes on tokens that a text divides into. -/
abbrev Passes (r : Reader α) : Prop := Yields r fun _ => True

theorem yields_pure {P : α → Prop} {a : α} (h : P a) : Yields (pure a) P := by
  intro bound ts b rest hnamed hread
  cases hread
  exact ⟨h, hnamed⟩

theorem passes_pure (a : α) : Passes (pure a) := yields_pure trivial

theorem yields_throw (fault : SyntaxFault) (P : α → Prop) : Yields (throw fault) P := by
  intro bound ts a rest _ hread
  cases hread

theorem Yields.bind {r : Reader α} {f : α → Reader β} {P : α → Prop} {Q : β → Prop}
    (hfirst : Yields r P) (hthen : ∀ a, P a → Yields (f a) Q) : Yields (r >>= f) Q := by
  intro bound ts b rest hnamed hread
  obtain ⟨⟨a, between⟩, hread, hothers⟩ := Outcome.of_bind_eq_ok hread
  obtain ⟨ha, hbetween⟩ := hfirst bound ts a between hnamed hread
  exact hthen a ha bound between b rest hbetween hothers

theorem Yields.weaken {r : Reader α} {P Q : α → Prop} (h : Yields r P) (himp : ∀ a, P a → Q a) :
    Yields r Q := by
  intro bound ts a rest hnamed hread
  obtain ⟨ha, hrest⟩ := h bound ts a rest hnamed hread
  exact ⟨himp a ha, hrest⟩

theorem Yields.passes {r : Reader α} {P : α → Prop} (h : Yields r P) : Passes r :=
  h.weaken fun _ _ => trivial

theorem Yields.map {r : Reader α} {P : α → Prop} {Q : β → Prop} {f : α → β} (h : Yields r P)
    (himp : ∀ a, P a → Q (f a)) : Yields (f <$> r) Q := by
  rw [map_eq_pure_bind]
  exact h.bind fun a ha => yields_pure (himp a ha)

theorem yields_read {f : Nat → Reader β} {Q : β → Prop} (h : ∀ bound, Yields (f bound) Q) :
    Yields (read >>= f) Q :=
  fun bound ts b rest hnamed hread => h bound bound ts b rest hnamed hread

theorem yields_ite {c : Prop} [Decidable c] {r s : Reader α} {P : α → Prop} (hr : Yields r P)
    (hs : Yields s P) : Yields (if c then r else s) P := by
  split
  · exact hr
  · exact hs

/-! ### Single tokens -/

theorem yields_peek : Yields peek Token.IsReadable := by
  intro bound ts t rest hnamed hread
  cases hread
  refine ⟨?_, hnamed⟩
  cases ts with
  | nil => trivial
  | cons u us => exact hnamed u (by simp)

theorem passes_advance : Passes advance := by
  intro bound ts a rest hnamed hread
  refine ⟨trivial, fun t ht => hnamed t ?_⟩
  rw [eq_drop_of_advance hread] at ht
  exact List.mem_of_mem_drop ht

theorem yields_peekSecond : Yields peekSecond Token.IsReadable := by
  intro bound ts t rest hnamed hread
  cases ts with
  | nil =>
    cases hread
    exact ⟨trivial, hnamed⟩
  | cons u us =>
    cases us with
    | nil =>
      cases hread
      exact ⟨trivial, hnamed⟩
    | cons v vs =>
      have hv := hnamed v (by simp)
      cases v with
      | invalid fault => cases hread
      | _ =>
        cases hread
        exact ⟨hv, hnamed⟩

theorem passes_unexpected : Passes (unexpected : Reader α) :=
  yields_peek.bind fun _ _ => yields_throw _ _

theorem passes_mark (m : Punctuator) : Passes (mark m) :=
  yields_peek.bind fun _ _ => yields_ite passes_advance (yields_throw _ _)

theorem passes_optionalMark (m : Punctuator) : Passes (optionalMark m) :=
  yields_peek.bind fun _ _ =>
    yields_ite (passes_advance.bind fun _ _ => passes_pure true) (passes_pure false)

theorem yields_name : Yields name fun n => isName n = true := by
  refine yields_peek.bind fun t ht => ?_
  cases t with
  | name n => exact passes_advance.bind fun _ _ => yields_pure ht
  | _ => exact yields_throw _ _

theorem passes_keyword (word : String) : Passes (keyword word) :=
  yields_peek.bind fun _ _ => yields_ite passes_advance (yields_throw _ _)

theorem passes_optionalKeyword (word : String) : Passes (optionalKeyword word) :=
  yields_peek.bind fun _ _ =>
    yields_ite (passes_advance.bind fun _ _ => passes_pure true) (passes_pure false)

/-! ### Repetition

A repetition yields lists of what its items yield, within every bound.
-/

section Repetition

variable {item : Reader α} {P : α → Prop} (hitem : Yields item P)

include hitem

theorem yields_cons {r : Reader (List α)} (h : Yields r fun as => ∀ a ∈ as, P a) :
    Yields (item >>= fun first => r >>= fun rest => pure (first :: rest)) fun as =>
      ∀ a ∈ as, P a :=
  hitem.bind fun _ hfirst => h.bind fun _ hrest =>
    yields_pure (List.forall_mem_cons.2 ⟨hfirst, hrest⟩)

theorem yields_itemsWithin (closing : Punctuator) :
    ∀ bound, Yields (itemsWithin closing item bound) fun as => ∀ a ∈ as, P a := by
  intro bound
  induction bound with
  | zero => exact yields_peek.bind fun _ _ => yields_throw _ _
  | succ bound ih =>
    unfold itemsWithin
    refine (passes_optionalMark closing).bind fun isClosed _ => yields_ite ?_ ?_
    · exact yields_pure (by simp)
    · exact yields_cons hitem ih

theorem yields_itemsUntil (closing : Punctuator) :
    Yields (itemsUntil closing item) fun as => ∀ a ∈ as, P a :=
  yields_read fun bound => yields_itemsWithin hitem closing bound

theorem yields_someUntil (closing : Punctuator) :
    Yields (someUntil closing item) fun as => ∀ a ∈ as, P a :=
  yields_cons hitem (yields_itemsUntil hitem closing)

theorem yields_someBetween (opening closing : Punctuator) :
    Yields (someBetween opening closing item) fun as => ∀ a ∈ as, P a :=
  (passes_mark opening).bind fun _ _ => yields_someUntil hitem closing

theorem yields_optionalBetween (opening closing : Punctuator) :
    Yields (optionalBetween opening closing item) fun as => ∀ a ∈ as, P a := by
  refine (passes_optionalMark opening).bind fun isOpen _ => yields_ite ?_ ?_
  · exact yields_someUntil hitem closing
  · exact yields_pure (by simp)

theorem yields_whileWithin (test : Token → Bool) :
    ∀ bound, Yields (whileWithin test item bound) fun as => ∀ a ∈ as, P a := by
  intro bound
  induction bound with
  | zero => exact yields_pure (by simp)
  | succ bound ih =>
    unfold whileWithin
    refine yields_peek.bind fun t _ => yields_ite ?_ ?_
    · exact yields_cons hitem ih
    · exact yields_pure (by simp)

theorem yields_whileNext (test : Token → Bool) :
    Yields (whileNext test item) fun as => ∀ a ∈ as, P a :=
  yields_read fun bound => yields_whileWithin hitem test bound

theorem yields_separatedBy (m : Punctuator) :
    Yields (separatedBy m item) fun as => ∀ a ∈ as, P a := by
  unfold separatedBy
  refine (passes_optionalMark m).bind fun _ _ => yields_cons hitem ?_
  exact yields_whileNext ((passes_mark m).bind fun _ _ => hitem) _

end Repetition

/-! ### Values, types and directives

Values hold names of their own, of which nothing has to be known.  Only type references yield more
than that they pass tokens on.
-/

theorem yields_forbiddenVariable (P : α → Prop) : Yields (forbiddenVariable : Reader α) P := by
  refine yields_peek.bind fun dollar _ => passes_advance.bind fun _ _ =>
    yields_peek.bind fun t _ => ?_
  cases t with
  | name n => exact yields_throw _ _
  | _ => exact yields_throw _ _

/-- A value passes on names if the values within it do. -/
theorem passes_valueWithin_step {isConstant : Bool} {room : Nat}
    (hinner : ∀ less, room = less + 1 → Passes (valueWithin isConstant less)) :
    Passes (valueWithin isConstant room) := by
  have single : ∀ v : Value, Passes (advance >>= fun _ => pure v) :=
    fun v => passes_advance.bind fun _ _ => passes_pure v
  unfold valueWithin
  refine yields_peek.bind fun t _ => ?_
  split
  · exact single _
  · exact single _
  · exact single _
  · exact single _
  · exact single _
  · cases room with
    | zero => exact yields_throw _ _
    | succ room =>
      have inner := hinner room rfl
      refine passes_advance.bind fun _ _ => ?_
      exact (yields_itemsUntil inner .bracketRight).bind fun items _ =>
        passes_pure (Value.list items)
  · cases room with
    | zero => exact yields_throw _ _
    | succ room =>
      have inner := hinner room rfl
      refine passes_advance.bind fun _ _ => ?_
      have entry : Passes (do
          let key ← name
          mark .colon
          return (key, ← valueWithin isConstant room)) :=
        yields_name.bind fun key _ => (passes_mark .colon).bind fun _ _ =>
          inner.bind fun v _ => passes_pure (key, v)
      exact (yields_itemsUntil entry .braceRight).bind fun fields _ =>
        passes_pure (Value.object fields)
  · refine yields_ite (yields_forbiddenVariable _) ?_
    exact passes_advance.bind fun _ _ => yields_name.bind fun n _ => passes_pure (Value.variable n)
  · exact yields_throw _ _

theorem passes_valueWithin (isConstant : Bool) :
    ∀ room, Passes (valueWithin isConstant room) := by
  intro room
  induction room with
  | zero => exact passes_valueWithin_step fun _ h => nomatch h
  | succ room ih =>
    refine passes_valueWithin_step fun less h => ?_
    cases h
    exact ih

theorem passes_arguments (isConstant : Bool) (room : Nat) : Passes (arguments isConstant room) := by
  have argument : Passes (argument isConstant room) :=
    yields_name.bind fun key _ => (passes_mark .colon).bind fun _ _ =>
      (passes_valueWithin isConstant room).bind fun v _ => passes_pure (key, v)
  exact (yields_optionalBetween argument .parenLeft .parenRight).passes

theorem passes_directivesWithin (isConstant : Bool) (room : Nat) :
    Passes (directivesWithin isConstant room) := by
  refine (yields_whileNext (P := fun _ => True) ?_ _).passes
  exact (passes_mark .at).bind fun _ _ => yields_name.bind fun n _ =>
    (passes_arguments isConstant room).bind fun args _ => passes_pure (Directive.mk n args)

theorem passes_directives (isConstant : Bool) : Passes (directives isConstant) :=
  passes_directivesWithin isConstant nestingLimit

theorem yields_typeRefWithin (room : Nat) :
    Yields (typeRefWithin room) fun t => isName t.base = true := by
  have whole : ∀ {r : Reader TypeRef}, (Yields r fun t => isName t.base = true) →
      Yields (r >>= marked) fun t => isName t.base = true := by
    intro r hr
    refine hr.bind fun inner hinner => ?_
    refine (passes_optionalMark .bang).bind fun isMarked _ => ?_
    exact yields_ite (yields_pure hinner) (yields_pure hinner)
  have named : Yields (name >>= fun n => pure (TypeRef.named n)) fun t => isName t.base = true :=
    yields_name.bind fun n hn => yields_pure hn
  induction room with
  | zero =>
    rw [typeRefWithin_eq]
    refine whole ((passes_optionalMark .bracketLeft).bind fun isList _ => ?_)
    exact yields_ite (yields_throw _ _) named
  | succ room ih =>
    rw [typeRefWithin_eq]
    refine whole ((passes_optionalMark .bracketLeft).bind fun isList _ => yields_ite ?_ named)
    exact ih.bind fun item hitem => (passes_mark .bracketRight).bind fun _ _ => yields_pure hitem

theorem yields_typeRef : Yields typeRef fun t => isName t.base = true :=
  yields_typeRefWithin nestingLimit

theorem passes_optionalDefault : Passes optionalDefault :=
  (passes_optionalMark .equals).bind fun _ _ =>
    yields_ite ((passes_valueWithin true nestingLimit).bind fun v _ => passes_pure (some v))
      (passes_pure none)

theorem passes_optionalDescription : Passes optionalDescription := by
  refine yields_peek.bind fun t _ => ?_
  cases t with
  | string text => exact passes_advance.bind fun _ _ => passes_pure _
  | blockString text => exact passes_advance.bind fun _ _ => passes_pure _
  | _ => exact passes_pure none

/-! ### Executable definitions -/

theorem passes_fragmentName : Passes fragmentName :=
  yields_peek.bind fun _ _ => yields_ite passes_unexpected yields_name.passes

theorem passes_selectionsWithin : ∀ room, Passes (selectionsWithin room) := by
  intro room
  induction room with
  | zero => exact yields_throw _ _
  | succ room ih =>
    have ds := passes_directivesWithin false room
    unfold selectionsWithin
    refine (yields_someBetween (P := fun _ => True) ?_ .braceLeft .braceRight).passes
    refine (passes_optionalMark .spread).bind fun isSpread _ => yields_ite ?_ ?_
    · refine (passes_optionalKeyword "on").bind fun isInline _ => yields_ite ?_ ?_
      · exact yields_name.bind fun _ _ => ds.bind fun _ _ => ih.bind fun _ _ => passes_pure _
      · refine yields_peek.bind fun t _ => ?_
        cases t with
        | name n => exact passes_fragmentName.bind fun _ _ => ds.bind fun _ _ => passes_pure _
        | _ => exact ds.bind fun _ _ => ih.bind fun _ _ => passes_pure _
    · refine yields_name.bind fun first _ => (passes_optionalMark .colon).bind fun isAlias _ => ?_
      have body : ∀ («alias» : Option String) (n : String), Passes (do
          let args ← arguments false room
          let ds ← directivesWithin false room
          if (← peek) = .punctuator .braceLeft then
            return Selection.field «alias» n args ds (← selectionsWithin room)
          else return Selection.field «alias» n args ds []) := by
        intro «alias» n
        refine (passes_arguments false room).bind fun _ _ => ds.bind fun _ _ => ?_
        refine yields_peek.bind fun _ _ => yields_ite ?_ (passes_pure _)
        exact ih.bind fun _ _ => passes_pure _
      refine yields_ite ?_ (body none first)
      exact yields_name.bind fun n _ => body (some first) n

theorem passes_selectionSet : Passes selectionSet :=
  passes_selectionsWithin nestingLimit

theorem passes_operationKind : Passes operationKind := by
  refine yields_peek.bind fun t _ => yields_name.bind fun word _ => ?_
  cases OperationKind.ofKeyword? word with
  | none => exact yields_throw _ _
  | some kind => exact passes_pure kind

theorem passes_variableDefinition : Passes variableDefinition :=
  passes_optionalDescription.bind fun _ _ => (passes_mark .dollar).bind fun _ _ =>
    yields_name.bind fun _ _ => (passes_mark .colon).bind fun _ _ =>
      yields_typeRef.bind fun _ _ => passes_optionalDefault.bind fun _ _ =>
        (passes_directives true).bind fun _ _ => passes_pure _

theorem passes_operation : Passes operation := by
  refine passes_optionalDescription.bind fun _ _ => passes_operationKind.bind fun _ _ => ?_
  refine yields_peek.bind fun t _ => ?_
  have body : ∀ (f : List VariableDefinition → List Directive → List Selection → Operation),
      Passes (do
        let parameters ← optionalBetween .parenLeft .parenRight variableDefinition
        let ds ← directives false
        return f parameters ds (← selectionSet)) := by
    intro f
    refine (yields_optionalBetween passes_variableDefinition .parenLeft .parenRight).bind ?_
    exact fun _ _ => (passes_directives false).bind fun _ _ =>
      passes_selectionSet.bind fun _ _ => passes_pure _
  cases t with
  | name n =>
    have given : Passes (some <$> name) := yields_name.map fun _ _ => trivial
    exact given.bind fun n _ => body _
  | _ => exact body _

theorem passes_fragment : Passes fragment :=
  passes_optionalDescription.bind fun _ _ => (passes_keyword "fragment").bind fun _ _ =>
    passes_fragmentName.bind fun _ _ => (passes_keyword "on").bind fun _ _ =>
      yields_name.bind fun _ _ => (passes_directives false).bind fun _ _ =>
        passes_selectionSet.bind fun _ _ => passes_pure _

/-! ### Type definitions -/

theorem yields_inputField : Yields inputField InputField.IsNamed :=
  passes_optionalDescription.bind fun _ _ => yields_name.bind fun _ hname =>
    (passes_mark .colon).bind fun _ _ => yields_typeRef.bind fun _ htype =>
      passes_optionalDefault.bind fun _ _ => (passes_directives true).bind fun _ _ =>
        yields_pure ⟨hname, htype⟩

theorem yields_field : Yields field Field.IsNamed :=
  passes_optionalDescription.bind fun _ _ => yields_name.bind fun _ hname =>
    (yields_optionalBetween yields_inputField .parenLeft .parenRight).bind fun _ _ =>
      (passes_mark .colon).bind fun _ _ => yields_typeRef.bind fun _ htype =>
        (passes_directives true).bind fun _ _ => yields_pure ⟨hname, htype⟩

theorem passes_interfaces : Passes interfaces :=
  (passes_optionalKeyword "implements").bind fun _ _ =>
    yields_ite (yields_separatedBy yields_name .ampersand).passes (passes_pure [])

theorem passes_rootType : Passes rootType :=
  passes_operationKind.bind fun _ _ => (passes_mark .colon).bind fun _ _ =>
    yields_name.bind fun _ _ => passes_pure _

theorem yields_objectBody (description : Option Description) :
    Yields (objectBody description) fun body =>
      isName body.name = true ∧ ∀ f ∈ body.fields, f.IsNamed :=
  yields_name.bind fun _ hname => passes_interfaces.bind fun _ _ =>
    (passes_directives true).bind fun _ _ =>
      (yields_optionalBetween yields_field .braceLeft .braceRight).bind fun _ hfields =>
        yields_pure ⟨hname, hfields⟩

theorem yields_inputBody (description : Option Description) :
    Yields (inputBody description) fun body =>
      isName body.name = true ∧ ∀ f ∈ body.fields, f.IsNamed :=
  yields_name.bind fun _ hname => (passes_directives true).bind fun _ _ =>
    (yields_optionalBetween yields_inputField .braceLeft .braceRight).bind fun _ hfields =>
      yields_pure ⟨hname, hfields⟩

theorem passes_scalarBody (description : Option Description) : Passes (scalarBody description) :=
  yields_name.bind fun _ _ => (passes_directives true).bind fun _ _ => passes_pure _

theorem passes_unionBody (description : Option Description) : Passes (unionBody description) := by
  refine yields_name.bind fun _ _ => (passes_directives true).bind fun _ _ => ?_
  refine (passes_optionalMark .equals).bind fun _ _ => yields_ite ?_ ?_
  · exact (yields_separatedBy yields_name .pipe).bind fun _ _ => passes_pure _
  · exact passes_pure _

theorem passes_enumValue : Passes enumValue := by
  refine passes_optionalDescription.bind fun _ _ => yields_peek.bind fun t _ => ?_
  refine yields_ite (yields_throw _ _) ?_
  exact yields_name.bind fun _ _ => (passes_directives true).bind fun _ _ => passes_pure _

theorem yields_enumBody (description : Option Description) :
    Yields (enumBody description) fun body => isName body.name = true :=
  yields_name.bind fun _ hname => (passes_directives true).bind fun _ _ =>
    (yields_optionalBetween passes_enumValue .braceLeft .braceRight).bind fun _ _ =>
      yields_pure hname

theorem passes_directiveBody (description : Option Description) :
    Passes (directiveBody description) := by
  refine (passes_mark .at).bind fun _ _ => yields_name.bind fun _ _ => ?_
  refine (yields_optionalBetween yields_inputField .parenLeft .parenRight).bind fun _ _ => ?_
  refine (passes_optionalKeyword "repeatable").bind fun _ _ =>
    (passes_keyword "on").bind fun _ _ => ?_
  have location : Passes directiveLocation :=
    yields_peek.bind fun _ _ => yields_name.bind fun _ _ =>
      yields_ite (passes_pure _) (yields_throw _ _)
  exact (yields_separatedBy location .pipe).bind fun _ _ => passes_pure _

theorem passes_schemaBody (description : Option Description) : Passes (schemaBody description) :=
  (passes_directives true).bind fun _ _ =>
    (yields_someBetween passes_rootType .braceLeft .braceRight).bind fun _ _ => passes_pure _

theorem yields_typeDefinition {description : Option Description} {word : String}
    {body : Reader Definition} (hword : typeDefinition? description word = some body) :
    Yields body Definition.IsNamed := by
  unfold typeDefinition? at hword
  split at hword <;> cases hword
  · exact (passes_schemaBody description).map fun _ _ => trivial
  · exact (passes_scalarBody description).map fun _ _ => trivial
  · exact (yields_objectBody description).map fun _ h => h
  · exact (yields_objectBody description).map fun _ h => h
  · exact (passes_unionBody description).map fun _ _ => trivial
  · exact (yields_enumBody description).map fun _ h => h
  · exact (yields_inputBody description).map fun _ h => h
  · exact (passes_directiveBody description).map fun _ _ => trivial

theorem yields_extensionOf {adds : Bool} {d : Definition} (hnamed : d.IsNamed) :
    Yields (extensionOf adds d) Definition.IsNamed :=
  yields_ite (yields_pure hnamed) (yields_peek.bind fun _ _ => yields_throw _ _)

theorem yields_extension? {word : String} {body : Reader Definition}
    (hword : extension? word = some body) : Yields body Definition.IsNamed := by
  unfold extension? at hword
  split at hword <;> cases hword
  · exact (passes_directives true).bind fun _ _ =>
      (yields_optionalBetween passes_rootType .braceLeft .braceRight).bind fun _ _ =>
        yields_extensionOf trivial
  · exact (passes_scalarBody none).bind fun _ _ => yields_extensionOf trivial
  · exact (yields_objectBody none).bind fun _ h => yields_extensionOf h
  · exact (yields_objectBody none).bind fun _ h => yields_extensionOf h
  · exact (passes_unionBody none).bind fun _ _ => yields_extensionOf trivial
  · exact (yields_enumBody none).bind fun _ h => yields_extensionOf h
  · exact (yields_inputBody none).bind fun _ h => yields_extensionOf h

theorem yields_extension : Yields extension Definition.IsNamed := by
  refine yields_peekSecond.bind fun t _ => ?_
  cases t with
  | name word =>
    simp only
    cases hword : extension? word with
    | none => exact yields_throw _ _
    | some body =>
      exact passes_advance.bind fun _ _ => passes_advance.bind fun _ _ => yields_extension? hword
  | _ => exact yields_throw _ _

theorem yields_definitionNamed (described : Bool) (word : String) (found : Token) :
    Yields (definitionNamed described word found) Definition.IsNamed := by
  unfold definitionNamed
  cases hword : typeDefinition? none word with
  | some body =>
    refine passes_optionalDescription.bind fun description _ => passes_advance.bind fun _ _ => ?_
    cases hbody : typeDefinition? description word with
    | none => exact yields_throw _ _
    | some body => exact yields_typeDefinition hbody
  | none =>
    refine yields_ite (passes_operation.bind fun _ _ => yields_pure trivial) ?_
    refine yields_ite (passes_fragment.bind fun _ _ => yields_pure trivial) ?_
    exact yields_ite (yields_throw _ _) (yields_ite yields_extension (yields_throw _ _))

/-- A definition by its first token and the one that names its kind. -/
def definitionAt (first found : Token) : Reader Definition := do
  if isDescription first ∧ found = .punctuator .braceLeft then throw .describedShorthand
  match found with
  | .name word => definitionNamed (isDescription first) word found
  | _ => throw (.unexpected found)

theorem yields_definitionAt (first found : Token) :
    Yields (definitionAt first found) Definition.IsNamed := by
  refine yields_ite (yields_throw _ _) ?_
  cases found with
  | name word => exact yields_definitionNamed _ word _
  | _ => exact yields_throw _ _

theorem yields_definition : Yields definition Definition.IsNamed := by
  refine yields_peek.bind fun first _ => yields_ite ?_ ?_
  · exact passes_selectionSet.bind fun _ _ => yields_pure trivial
  · exact yields_ite (yields_peekSecond.bind fun found _ => yields_definitionAt first found)
      (yields_definitionAt first first)

theorem yields_definitionsWithin :
    ∀ bound, Yields (definitionsWithin bound) fun ds => ∀ d ∈ ds, d.IsNamed := by
  intro bound
  induction bound with
  | zero => exact yields_peek.bind fun _ _ => yields_throw _ _
  | succ bound ih =>
    unfold definitionsWithin
    refine yields_definition.bind fun first hfirst => yields_peek.bind fun t _ => yields_ite ?_ ?_
    · exact yields_pure (by simpa using hfirst)
    · exact ih.bind fun others hothers =>
        yields_pure (List.forall_mem_cons.2 ⟨hfirst, hothers⟩)

end Reader

/-- What definitions yield holds of a document that was read. -/
theorem Document.of_parseStrict {text : String} {doc : Document} {P : Document → Prop}
    (hyields : ∀ bound, Reader.Yields (Reader.definitionsWithin bound) fun ds => P ⟨ds⟩)
    (h : Document.parseStrict text = .ok doc) : P doc := by
  unfold Document.parseStrict Reader.run at h
  split at h
  · cases h
  · obtain ⟨⟨read, rest⟩, hread, rfl⟩ := Outcome.of_map_eq_ok h
    have whole : Reader.Yields (do return ⟨← Reader.definitions⟩) P :=
      (Reader.yields_read hyields).bind fun ds hds => Reader.yields_pure hds
    exact (whole _ _ _ _ (isReadable_lex _) hread).1

/-- **A document that was read has names of the language.** -/
theorem Document.isNamed_of_parse {text : String} {doc : Document}
    (h : Document.parse text = .ok doc) : doc.IsNamed := by
  unfold Document.parse at h
  split at h
  · cases h
    exact fun _ h => nomatch h
  · exact Document.of_parseStrict Reader.yields_definitionsWithin h

end SchemaLoom.Sdl
