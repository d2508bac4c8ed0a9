/-
The bound on repetitions is never reached.

Readers are given a bound on how often they repeat, so that reading ends.  Every item that is
repeated takes a token, and so a bound that is more than the number of tokens is as good as any
other: a reader returns the same value and leaves the same tokens, or fails for the same reason.

A reader is steady if that is so of it, and if it takes at least some number of tokens
(`Steady`).  Steady readers are put together like the readers themselves.  For a repetition the
number has to be positive (`steady_read`), or else the bound could decide how often nothing is
read.

Some readers take a token only when one of a kind comes next, such as a mark.  They are steady on
tokens that begin so (`SteadyOn`), which is all that is asked of them where they are used.
-/
import SchemaLoom.Proofs.Sdl.Restoring.Selection

namespace SchemaLoom.Sdl

variable {α β : Type}

namespace Reader

/-! ### Steady readers -/

/-- Given tokens with `p`, the reader `r` does the same within every bound above their number, and
it takes at least `k` of them. -/
structure SteadyOn (p : List Token → Prop) (k : Nat) (r : Reader α) : Prop where
  same : ∀ {ts : List Token} {bound bound' : Nat}, p ts → ts.length < bound → ts.length < bound' →
    r bound ts = r bound' ts
  shrinks : ∀ {ts : List Token} {bound : Nat} {a : α} {rest : List Token}, p ts →
    r bound ts = .ok (a, rest) → rest.length + k ≤ ts.length

/-- The reader `r` is steady on all tokens. -/
abbrev Steady (k : Nat) (r : Reader α) : Prop := SteadyOn (fun _ => True) k r

variable {p : List Token → Prop} {k j : Nat}

theorem SteadyOn.weaken {r : Reader α} (h : SteadyOn p k r) (hless : j ≤ k) : SteadyOn p j r where
  same := h.same
  shrinks hp hread := by
    have := h.shrinks hp hread
    omega

/-- A steady reader, whatever it takes. -/
theorem SteadyOn.any {r : Reader α} (h : SteadyOn p k r) : SteadyOn p 0 r :=
  h.weaken (Nat.zero_le k)

theorem Steady.on {r : Reader α} (h : Steady k r) : SteadyOn p k r where
  same _ := h.same trivial
  shrinks _ := h.shrinks trivial

theorem steady_pure (a : α) : SteadyOn p 0 (pure a : Reader α) where
  same _ _ _ := rfl
  shrinks _ hread := by
    cases hread
    exact Nat.le_refl _

theorem steady_throw (fault : SyntaxFault) : SteadyOn p k (throw fault : Reader α) where
  same _ _ _ := rfl
  shrinks _ hread := by cases hread

/-- **Steady readers one after the other are steady**, and pass on what both of them take. -/
theorem SteadyOn.bind {r : Reader α} {f : α → Reader β} (hfirst : SteadyOn p j r)
    (hthen : ∀ a, Steady k (f a)) : SteadyOn p (j + k) (r >>= f) where
  same {ts bound bound'} hp hbound hbound' := by
    show (r bound ts >>= fun s => f s.1 bound s.2) = (r bound' ts >>= fun s => f s.1 bound' s.2)
    rw [hfirst.same hp hbound hbound']
    cases hread : r bound' ts with
    | error fault => rfl
    | ok found =>
      obtain ⟨a, rest⟩ := found
      have := hfirst.shrinks hp hread
      exact (hthen a).same trivial (by dsimp only; omega) (by dsimp only; omega)
  shrinks hp hread := by
    obtain ⟨a, between, hread, hothers⟩ := of_bind hread
    have := hfirst.shrinks hp hread
    have := (hthen a).shrinks trivial hothers
    omega

/-- A steady reader in front of one that may take nothing. -/
theorem SteadyOn.then {r : Reader α} {f : α → Reader β} (hfirst : SteadyOn p k r)
    (hthen : ∀ a, Steady 0 (f a)) : SteadyOn p k (r >>= f) := hfirst.bind hthen

/-- A reader that may take nothing in front of a steady one. -/
theorem SteadyOn.before {r : Reader α} {f : α → Reader β} (hfirst : SteadyOn p 0 r)
    (hthen : ∀ a, Steady k (f a)) : SteadyOn p k (r >>= f) :=
  (hfirst.bind hthen).weaken (Nat.le_add_left k 0)

theorem Steady.map {r : Reader α} (h : Steady k r) (f : α → β) : Steady k (f <$> r) := by
  rw [map_eq_pure_bind]
  exact h.then fun _ => steady_pure _

theorem steady_ite {c : Prop} [Decidable c] {r s : Reader α} (hr : SteadyOn p k r)
    (hs : SteadyOn p k s) : SteadyOn p k (if c then r else s) := by
  split
  · exact hr
  · exact hs

/-! ### Single tokens

Readers that look ahead take nothing.  Put together with what follows, they are steady if that is
so for every token that may come next.
-/

theorem steady_peek : Steady 0 peek where
  same _ _ _ := rfl
  shrinks _ hread := by
    cases hread
    exact Nat.le_refl _

/-- What is done with the next token, or at the end of the text. -/
theorem steady_peek_bind {f : Token → Reader β} (hend : Steady k (f .eof))
    (hnext : ∀ t, SteadyOn (· ≠ []) k (f t)) : Steady k (peek >>= f) where
  same {ts bound bound'} _ hbound hbound' := by
    show f (ts.headD .eof) bound ts = f (ts.headD .eof) bound' ts
    cases ts with
    | nil => exact hend.same trivial hbound hbound'
    | cons t ts => exact (hnext t).same (List.cons_ne_nil t ts) hbound hbound'
  shrinks {ts bound a rest} _ hread := by
    change f (ts.headD .eof) bound ts = .ok (a, rest) at hread
    cases ts with
    | nil => exact hend.shrinks trivial hread
    | cons t ts => exact (hnext t).shrinks (List.cons_ne_nil t ts) hread

/-- Looking at the token after the next one leaves the tokens. -/
theorem of_peekSecond {bound : Nat} {ts rest : List Token} {t : Token}
    (h : peekSecond bound ts = .ok (t, rest)) : rest = ts ∧ t = (ts.drop 1).headD .eof := by
  cases ts with
  | nil =>
    cases h
    exact ⟨rfl, rfl⟩
  | cons u us =>
    cases us with
    | nil =>
      cases h
      exact ⟨rfl, rfl⟩
    | cons v vs =>
      cases v with
      | invalid fault => cases h
      | _ =>
        cases h
        exact ⟨rfl, rfl⟩

theorem steady_peekSecond : Steady 0 peekSecond where
  same {ts _ _} _ _ _ := by
    rcases ts with _ | ⟨t, _ | ⟨u, ts⟩⟩
    · rfl
    · rfl
    · cases u <;> rfl
  shrinks _ hread := by
    rw [(of_peekSecond hread).1]
    exact Nat.le_refl _

/-- What is done with the token after the next one, or if there is none. -/
theorem steady_peekSecond_bind {f : Token → Reader β} (hend : Steady k (f .eof))
    (hnext : ∀ t, SteadyOn (· ≠ []) k (f t)) : Steady k (peekSecond >>= f) := by
  have heach : ∀ {ts : List Token} {t : Token}, t = (ts.drop 1).headD .eof →
      SteadyOn (· = ts) k (f t) := by
    intro ts t ht
    cases ts with
    | nil =>
      subst ht
      exact ⟨fun _ => hend.same trivial, fun _ => hend.shrinks trivial⟩
    | cons u us =>
      refine ⟨fun hsame => (hnext t).same ?_, fun hsame => (hnext t).shrinks ?_⟩ <;>
        exact hsame ▸ List.cons_ne_nil u us
  refine ⟨fun {ts bound bound'} _ hbound hbound' => ?_, fun _ hread => ?_⟩
  · show (peekSecond bound ts >>= fun s => f s.1 bound s.2)
      = (peekSecond bound' ts >>= fun s => f s.1 bound' s.2)
    rw [steady_peekSecond.same trivial hbound hbound']
    cases hread : peekSecond bound' ts with
    | error fault => rfl
    | ok found =>
      obtain ⟨hkept, hsecond⟩ := of_peekSecond hread
      show f found.1 bound found.2 = f found.1 bound' found.2
      rw [hkept]
      exact (heach hsecond).same rfl hbound hbound'
  · obtain ⟨t, between, hsecond, hothers⟩ := of_bind hread
    obtain ⟨rfl, ht⟩ := of_peekSecond hsecond
    exact (heach ht).shrinks rfl hothers

theorem advance_same (ts : List Token) (bound bound' : Nat) :
    advance bound ts = advance bound' ts := by
  rcases ts with _ | ⟨t, _ | ⟨u, ts⟩⟩
  · rfl
  · rfl
  · cases u <;> rfl

theorem steady_advance : SteadyOn (· ≠ []) 1 advance where
  same {ts bound bound'} _ _ _ := advance_same ts bound bound'
  shrinks hsome hread := by
    have := List.length_pos_iff.2 hsome
    rw [eq_drop_of_advance hread, List.length_drop]
    omega

theorem steady_advance_any : Steady 0 advance where
  same {ts bound bound'} _ _ _ := advance_same ts bound bound'
  shrinks _ hread := by
    rw [eq_drop_of_advance hread, List.length_drop]
    omega

theorem steady_unexpected : Steady k (unexpected : Reader α) :=
  steady_peek_bind (steady_throw _) fun _ => steady_throw _

theorem steady_mark (m : Punctuator) : Steady 1 (mark m) :=
  steady_peek_bind (steady_throw _) fun _ => steady_ite steady_advance (steady_throw _)

theorem steady_optionalMark (m : Punctuator) : Steady 0 (optionalMark m) :=
  steady_peek.before fun _ =>
    steady_ite (steady_advance_any.then fun _ => steady_pure true) (steady_pure false)

theorem steady_name : Steady 1 name := by
  refine steady_peek_bind (steady_throw _) fun t => ?_
  cases t with
  | name n => exact steady_advance.then fun _ => steady_pure n
  | _ => exact steady_throw _

theorem steady_keyword (word : String) : Steady 1 (keyword word) :=
  steady_peek_bind (steady_throw _) fun _ => steady_ite steady_advance (steady_throw _)

theorem steady_optionalKeyword (word : String) : Steady 0 (optionalKeyword word) :=
  steady_peek.before fun _ =>
    steady_ite (steady_advance_any.then fun _ => steady_pure true) (steady_pure false)

/-! ### Repetition

The length of a repetition goes down by one with each item, while the number of tokens goes down
by one or more.  So `Agree` is proved by induction on the length, with the tokens kept general.
-/

/-- Readers that go on in the same way after one are the same behind it. -/
theorem bind_same {r : Reader α} {f g : α → Reader β} {bound : Nat} {ts : List Token}
    (h : ∀ a rest, r bound ts = .ok (a, rest) → f a bound rest = g a bound rest) :
    (r >>= f) bound ts = (r >>= g) bound ts := by
  show (r bound ts >>= fun s => f s.1 bound s.2) = (r bound ts >>= fun s => g s.1 bound s.2)
  cases hread : r bound ts with
  | error fault => rfl
  | ok found => exact h found.1 found.2 hread

/-- Any two repetitions that are longer than the number of tokens do the same. -/
def Agree (f : Nat → Reader α) : Prop :=
  ∀ {n n' bound : Nat} {ts : List Token}, ts.length < n → ts.length < n' →
    f n bound ts = f n' bound ts

/-- **A repetition that takes the bound for its length is steady.** -/
theorem steady_read {f : Nat → Reader β} (heach : ∀ n, Steady k (f n)) (hagree : Agree f) :
    Steady k (read >>= f) where
  same {ts bound bound'} _ hbound hbound' := by
    show f bound bound ts = f bound' bound' ts
    rw [hagree hbound hbound', (heach bound').same trivial hbound hbound']
  shrinks {_ bound _ _} _ hread := (heach bound).shrinks trivial hread

section Repetition

variable {item : Reader α} (hitem : Steady 1 item)

include hitem

theorem steady_cons {r : Reader (List α)} (h : Steady 0 r) :
    Steady 1 (item >>= fun first => r >>= fun rest => pure (first :: rest)) :=
  hitem.then fun _ => h.then fun _ => steady_pure _

/-- An item and what repetitions of different lengths read behind it. -/
theorem cons_same {r r' : Reader (List α)} {n bound : Nat} {ts : List Token}
    (hn : ts.length < n + 1)
    (h : ∀ rest : List Token, rest.length < n → rest.length < ts.length →
      r bound rest = r' bound rest) :
    (item >>= fun first => r >>= fun rest => pure (first :: rest)) bound ts
      = (item >>= fun first => r' >>= fun rest => pure (first :: rest)) bound ts := by
  refine bind_same fun first rest hread => ?_
  have := hitem.shrinks trivial hread
  show (r bound rest >>= _) = (r' bound rest >>= _)
  rw [h rest (by omega) (by omega)]

theorem steady_itemsWithin (closing : Punctuator) :
    ∀ n, Steady 0 (itemsWithin closing item n) := by
  intro n
  induction n with
  | zero => exact steady_unexpected
  | succ n ih =>
    unfold itemsWithin
    refine (steady_optionalMark closing).before fun _ => steady_ite (steady_pure []) ?_
    exact (steady_cons hitem ih).any

theorem agree_itemsWithin (closing : Punctuator) : Agree (itemsWithin closing item) := by
  intro n
  induction n with
  | zero => exact fun hn _ => absurd hn (Nat.not_lt_zero _)
  | succ n ih =>
    intro n' bound ts hn hn'
    obtain ⟨m, rfl⟩ : ∃ m, n' = m + 1 := ⟨n' - 1, by omega⟩
    unfold itemsWithin
    refine bind_same fun isClosed rest hread => ?_
    have := (steady_optionalMark closing).shrinks trivial hread
    cases isClosed with
    | true => rfl
    | false =>
      exact cons_same hitem (n := n) (by omega) fun behind hbehind _ => ih hbehind (by omega)

theorem steady_itemsUntil (closing : Punctuator) : Steady 0 (itemsUntil closing item) :=
  steady_read (steady_itemsWithin hitem closing) (agree_itemsWithin hitem closing)

theorem steady_someUntil (closing : Punctuator) : Steady 1 (someUntil closing item) :=
  steady_cons hitem (steady_itemsUntil hitem closing)

theorem steady_someBetween (opening closing : Punctuator) :
    Steady 1 (someBetween opening closing item) :=
  (steady_mark opening).then fun _ => (steady_someUntil hitem closing).any

theorem steady_optionalBetween (opening closing : Punctuator) :
    Steady 0 (optionalBetween opening closing item) :=
  (steady_optionalMark opening).before fun _ =>
    steady_ite ((steady_someUntil hitem closing).any) (steady_pure [])

theorem steady_whileWithin (test : Token → Bool) : ∀ n, Steady 0 (whileWithin test item n) := by
  intro n
  induction n with
  | zero => exact steady_pure []
  | succ n ih =>
    unfold whileWithin
    refine steady_peek.before fun t => steady_ite ?_ (steady_pure [])
    exact (steady_cons hitem ih).any

theorem agree_whileWithin (test : Token → Bool) : Agree (whileWithin test item) := by
  intro n
  induction n with
  | zero => exact fun hn _ => absurd hn (Nat.not_lt_zero _)
  | succ n ih =>
    intro n' bound ts hn hn'
    obtain ⟨m, rfl⟩ : ∃ m, n' = m + 1 := ⟨n' - 1, by omega⟩
    unfold whileWithin
    refine bind_same fun t rest hread => ?_
    have := steady_peek.shrinks trivial hread
    cases test t with
    | false => rfl
    | true =>
      exact cons_same hitem (n := n) (by omega) fun behind hbehind _ => ih hbehind (by omega)

theorem steady_whileNext (test : Token → Bool) : Steady 0 (whileNext test item) :=
  steady_read (steady_whileWithin hitem test) (agree_whileWithin hitem test)

theorem steady_separatedBy (m : Punctuator) : Steady 1 (separatedBy m item) := by
  refine (steady_optionalMark m).before fun _ => hitem.then fun _ => ?_
  refine (steady_whileNext ?_ _).then fun _ => steady_pure _
  exact (steady_mark m).then fun _ => hitem.any

end Repetition

/-! ### Values, types and directives -/

theorem steady_forbiddenVariable : Steady k (forbiddenVariable : Reader α) := by
  refine steady_peek.before fun _ => steady_advance_any.before fun _ =>
    steady_peek.before fun t => ?_
  cases t with
  | name n => exact steady_throw _
  | _ => exact steady_throw _

/-- A value is read steadily if the values within it are. -/
theorem steady_valueWithin_step {isConstant : Bool} {room : Nat}
    (hinner : ∀ less, room = less + 1 → Steady 1 (valueWithin isConstant less)) :
    Steady 1 (valueWithin isConstant room) := by
  have hsingle : ∀ v : Value, SteadyOn (· ≠ []) 1 (advance >>= fun _ => pure v) :=
    fun v => steady_advance.then fun _ => steady_pure v
  unfold valueWithin
  refine steady_peek_bind (steady_throw _) fun t => ?_
  split
  · exact hsingle _
  · exact hsingle _
  · exact hsingle _
  · exact hsingle _
  · exact hsingle _
  · cases room with
    | zero => exact steady_throw _
    | succ room =>
      refine steady_advance.then fun _ => ?_
      exact (steady_itemsUntil (hinner room rfl) .bracketRight).then fun _ => steady_pure _
  · cases room with
    | zero => exact steady_throw _
    | succ room =>
      refine steady_advance.then fun _ => (steady_itemsUntil ?_ .braceRight).then fun _ =>
        steady_pure _
      exact steady_name.then fun key => (steady_mark .colon).any.then fun _ =>
        (hinner room rfl).any.then fun v => steady_pure (key, v)
  · refine steady_ite steady_forbiddenVariable.on ?_
    exact steady_advance.then fun _ => steady_name.any.then fun n => steady_pure (Value.variable n)
  · exact steady_throw _

theorem steady_valueWithin (isConstant : Bool) :
    ∀ room, Steady 1 (valueWithin isConstant room) := by
  intro room
  induction room with
  | zero => exact steady_valueWithin_step fun _ h => nomatch h
  | succ room ih =>
    refine steady_valueWithin_step fun less h => ?_
    cases h
    exact ih

theorem steady_arguments (isConstant : Bool) (room : Nat) :
    Steady 0 (arguments isConstant room) := by
  refine steady_optionalBetween ?_ .parenLeft .parenRight
  exact steady_name.then fun key => (steady_mark .colon).any.then fun _ =>
    (steady_valueWithin isConstant room).any.then fun v => steady_pure (key, v)

theorem steady_directivesWithin (isConstant : Bool) (room : Nat) :
    Steady 0 (directivesWithin isConstant room) := by
  refine steady_whileNext ?_ _
  exact (steady_mark .at).then fun _ => steady_name.any.then fun n =>
    (steady_arguments isConstant room).then fun args => steady_pure (Directive.mk n args)

theorem steady_directives (isConstant : Bool) : Steady 0 (directives isConstant) :=
  steady_directivesWithin isConstant nestingLimit

theorem steady_typeRefWithin (room : Nat) : Steady 1 (typeRefWithin room) := by
  have hmarked : ∀ inner, Steady 0 (marked inner) := fun inner =>
    (steady_optionalMark .bang).then fun _ => steady_ite (steady_pure _) (steady_pure _)
  have hnamed : Steady 1 (name >>= fun n => pure (TypeRef.named n)) :=
    steady_name.then fun n => steady_pure _
  induction room with
  | zero =>
    rw [typeRefWithin_eq]
    refine SteadyOn.then ?_ hmarked
    exact (steady_optionalMark .bracketLeft).before fun _ => steady_ite (steady_throw _) hnamed
  | succ room ih =>
    rw [typeRefWithin_eq]
    refine SteadyOn.then ?_ hmarked
    refine (steady_optionalMark .bracketLeft).before fun _ => steady_ite ?_ hnamed
    exact ih.then fun item => (steady_mark .bracketRight).any.then fun _ => steady_pure _

theorem steady_typeRef : Steady 1 typeRef := steady_typeRefWithin nestingLimit

theorem steady_optionalDefault : Steady 0 optionalDefault :=
  (steady_optionalMark .equals).then fun _ =>
    steady_ite ((steady_valueWithin true nestingLimit).any.then fun v => steady_pure (some v))
      (steady_pure none)

theorem steady_optionalDescription : Steady 0 optionalDescription := by
  refine steady_peek.then fun t => ?_
  cases t with
  | string text => exact steady_advance_any.then fun _ => steady_pure _
  | blockString text => exact steady_advance_any.then fun _ => steady_pure _
  | _ => exact steady_pure none

/-! ### Executable definitions -/

theorem steady_fragmentName : Steady 1 fragmentName :=
  steady_peek.before fun _ => steady_ite steady_unexpected steady_name

theorem steady_selectionsWithin : ∀ room, Steady 1 (selectionsWithin room) := by
  intro room
  induction room with
  | zero => exact steady_throw _
  | succ room ih =>
    have hds := steady_directivesWithin false room
    rw [selectionsWithin_succ]
    refine steady_someBetween ?_ .braceLeft .braceRight
    refine (steady_optionalMark .spread).before fun isSpread => steady_ite ?_ ?_
    · refine (steady_optionalKeyword "on").before fun isInline => steady_ite ?_ ?_
      · exact steady_name.then fun _ => hds.then fun _ => ih.any.then fun _ => steady_pure _
      · refine steady_peek.before fun t => ?_
        cases t with
        | name n => exact steady_fragmentName.then fun _ => hds.then fun _ => steady_pure _
        | _ => exact hds.before fun _ => ih.then fun _ => steady_pure _
    · refine steady_name.then fun first => (steady_optionalMark .colon).then fun isAlias => ?_
      have hbody : ∀ («alias» : Option String) (n : String), Steady 0 (do
          let args ← arguments false room
          let ds ← directivesWithin false room
          if (← peek) = .punctuator .braceLeft then
            return Selection.field «alias» n args ds (← selectionsWithin room)
          else return Selection.field «alias» n args ds []) := by
        intro «alias» n
        refine (steady_arguments false room).then fun _ => hds.then fun _ => ?_
        refine steady_peek.then fun _ => steady_ite ?_ (steady_pure _)
        exact ih.any.then fun _ => steady_pure _
      refine steady_ite ?_ (hbody none first)
      exact steady_name.any.then fun n => hbody (some first) n

theorem steady_selectionSet : Steady 1 selectionSet := steady_selectionsWithin nestingLimit

theorem steady_operationKind : Steady 1 operationKind := by
  refine steady_peek.before fun t => steady_name.then fun word => ?_
  cases OperationKind.ofKeyword? word with
  | none => exact steady_throw _
  | some kind => exact steady_pure kind

theorem steady_variableDefinition : Steady 1 variableDefinition :=
  steady_optionalDescription.before fun _ => (steady_mark .dollar).then fun _ =>
    steady_name.any.then fun _ => (steady_mark .colon).any.then fun _ =>
      steady_typeRef.any.then fun _ => steady_optionalDefault.then fun _ =>
        (steady_directives true).then fun _ => steady_pure _

theorem steady_operation : Steady 1 operation := by
  refine steady_optionalDescription.before fun _ => steady_operationKind.then fun _ => ?_
  refine steady_peek.then fun t => ?_
  have hbody : ∀ (f : List VariableDefinition → List Directive → List Selection → Operation),
      Steady 0 (do
        let parameters ← optionalBetween .parenLeft .parenRight variableDefinition
        let ds ← directives false
        return f parameters ds (← selectionSet)) := by
    intro f
    refine (steady_optionalBetween steady_variableDefinition .parenLeft .parenRight).then ?_
    exact fun _ => (steady_directives false).then fun _ =>
      steady_selectionSet.any.then fun _ => steady_pure _
  cases t with
  | name n => exact (Steady.map steady_name some).any.then fun n => hbody _
  | _ => exact hbody _

theorem steady_fragment : Steady 1 fragment :=
  steady_optionalDescription.before fun _ => (steady_keyword "fragment").then fun _ =>
    steady_fragmentName.any.then fun _ => (steady_keyword "on").any.then fun _ =>
      steady_name.any.then fun _ => (steady_directives false).then fun _ =>
        steady_selectionSet.any.then fun _ => steady_pure _

/-! ### Type definitions -/

theorem steady_inputField : Steady 1 inputField :=
  steady_optionalDescription.before fun _ => steady_name.then fun _ =>
    (steady_mark .colon).any.then fun _ => steady_typeRef.any.then fun _ =>
      steady_optionalDefault.then fun _ => (steady_directives true).then fun _ => steady_pure _

theorem steady_field : Steady 1 field :=
  steady_optionalDescription.before fun _ => steady_name.then fun _ =>
    (steady_optionalBetween steady_inputField .parenLeft .parenRight).then fun _ =>
      (steady_mark .colon).any.then fun _ => steady_typeRef.any.then fun _ =>
        (steady_directives true).then fun _ => steady_pure _

theorem steady_interfaces : Steady 0 interfaces :=
  (steady_optionalKeyword "implements").then fun _ =>
    steady_ite (steady_separatedBy steady_name .ampersand).any (steady_pure [])

theorem steady_rootType : Steady 1 rootType :=
  steady_operationKind.then fun _ => (steady_mark .colon).any.then fun _ =>
    steady_name.any.then fun _ => steady_pure _

theorem steady_objectBody (description : Option Description) :
    Steady 1 (objectBody description) :=
  steady_name.then fun _ => steady_interfaces.then fun _ => (steady_directives true).then fun _ =>
    (steady_optionalBetween steady_field .braceLeft .braceRight).then fun _ => steady_pure _

theorem steady_inputBody (description : Option Description) : Steady 1 (inputBody description) :=
  steady_name.then fun _ => (steady_directives true).then fun _ =>
    (steady_optionalBetween steady_inputField .braceLeft .braceRight).then fun _ => steady_pure _

theorem steady_scalarBody (description : Option Description) : Steady 1 (scalarBody description) :=
  steady_name.then fun _ => (steady_directives true).then fun _ => steady_pure _

theorem steady_unionBody (description : Option Description) : Steady 1 (unionBody description) := by
  refine steady_name.then fun _ => (steady_directives true).then fun _ => ?_
  refine (steady_optionalMark .equals).then fun _ => steady_ite ?_ ?_
  · exact (steady_separatedBy steady_name .pipe).any.then fun _ => steady_pure _
  · exact steady_pure _

theorem steady_enumValue : Steady 1 enumValue := by
  refine steady_optionalDescription.before fun _ => steady_peek.before fun t => ?_
  refine steady_ite (steady_throw _) ?_
  exact steady_name.then fun _ => (steady_directives true).then fun _ => steady_pure _

theorem steady_enumBody (description : Option Description) : Steady 1 (enumBody description) :=
  steady_name.then fun _ => (steady_directives true).then fun _ =>
    (steady_optionalBetween steady_enumValue .braceLeft .braceRight).then fun _ => steady_pure _

theorem steady_directiveBody (description : Option Description) :
    Steady 1 (directiveBody description) := by
  refine (steady_mark .at).then fun _ => steady_name.any.then fun _ => ?_
  refine (steady_optionalBetween steady_inputField .parenLeft .parenRight).then fun _ => ?_
  refine (steady_optionalKeyword "repeatable").then fun _ =>
    (steady_keyword "on").any.then fun _ => ?_
  have hlocation : Steady 1 directiveLocation :=
    steady_peek.before fun _ => steady_name.then fun _ =>
      steady_ite (steady_pure _) (steady_throw _)
  exact (steady_separatedBy hlocation .pipe).any.then fun _ => steady_pure _

theorem steady_schemaBody (description : Option Description) : Steady 1 (schemaBody description) :=
  (steady_directives true).before fun _ =>
    (steady_someBetween steady_rootType .braceLeft .braceRight).then fun _ => steady_pure _

theorem steady_typeDefinition {description : Option Description} {word : String}
    {body : Reader Definition} (hword : typeDefinition? description word = some body) :
    Steady 1 body := by
  unfold typeDefinition? at hword
  split at hword <;> cases hword
  · exact (steady_schemaBody description).map _
  · exact (steady_scalarBody description).map _
  · exact (steady_objectBody description).map _
  · exact (steady_objectBody description).map _
  · exact (steady_unionBody description).map _
  · exact (steady_enumBody description).map _
  · exact (steady_inputBody description).map _
  · exact (steady_directiveBody description).map _

theorem steady_extensionOf (adds : Bool) (d : Definition) : Steady 0 (extensionOf adds d) :=
  steady_ite (steady_pure d) steady_unexpected

theorem steady_extension? {word : String} {body : Reader Definition}
    (hword : extension? word = some body) : Steady 0 body := by
  unfold extension? at hword
  split at hword <;> cases hword
  · exact (steady_directives true).then fun _ =>
      (steady_optionalBetween steady_rootType .braceLeft .braceRight).then fun _ =>
        steady_extensionOf _ _
  · exact (steady_scalarBody none).any.then fun _ => steady_extensionOf _ _
  · exact (steady_objectBody none).any.then fun _ => steady_extensionOf _ _
  · exact (steady_objectBody none).any.then fun _ => steady_extensionOf _ _
  · exact (steady_unionBody none).any.then fun _ => steady_extensionOf _ _
  · exact (steady_enumBody none).any.then fun _ => steady_extensionOf _ _
  · exact (steady_inputBody none).any.then fun _ => steady_extensionOf _ _

theorem steady_extension : Steady 1 extension := by
  refine steady_peekSecond_bind (steady_throw _) fun t => ?_
  cases t with
  | name word =>
    simp only
    cases hword : extension? word with
    | none => exact steady_throw _
    | some body =>
      exact steady_advance.then fun _ => steady_advance_any.then fun _ => steady_extension? hword
  | _ => exact steady_throw _

theorem steady_definitionNamed (described : Bool) (word : String) (found : Token) :
    Steady 1 (definitionNamed described word found) := by
  unfold definitionNamed
  cases hword : typeDefinition? none word with
  | some body =>
    refine steady_optionalDescription.before fun description =>
      steady_advance_any.before fun _ => ?_
    cases hbody : typeDefinition? description word with
    | none => exact steady_throw _
    | some body => exact steady_typeDefinition hbody
  | none =>
    refine steady_ite (steady_operation.then fun _ => steady_pure _) ?_
    refine steady_ite (steady_fragment.then fun _ => steady_pure _) ?_
    exact steady_ite (steady_throw _) (steady_ite steady_extension (steady_throw _))

theorem steady_definitionAt (first found : Token) : Steady 1 (definitionAt first found) := by
  refine steady_ite (steady_throw _) ?_
  cases found with
  | name word => exact steady_definitionNamed _ word _
  | _ => exact steady_throw _

theorem steady_definition : Steady 1 definition := by
  refine steady_peek.before fun first => steady_ite ?_ ?_
  · exact steady_selectionSet.then fun _ => steady_pure _
  · exact steady_ite (steady_peekSecond.before fun found => steady_definitionAt first found)
      (steady_definitionAt first first)

/-! ### Documents

The bound that the reader of a document starts with is more than the number of its tokens.
-/

theorem steady_definitionsWithin : ∀ n, Steady 0 (definitionsWithin n) := by
  intro n
  induction n with
  | zero => exact steady_unexpected
  | succ n ih =>
    unfold definitionsWithin
    refine steady_definition.any.then fun first => steady_peek.then fun t => ?_
    exact steady_ite (steady_pure [first]) (ih.then fun _ => steady_pure _)

theorem agree_definitionsWithin : Agree definitionsWithin := by
  intro n
  induction n with
  | zero => exact fun hn _ => absurd hn (Nat.not_lt_zero _)
  | succ n ih =>
    intro n' bound ts hn hn'
    obtain ⟨m, rfl⟩ : ∃ m, n' = m + 1 := ⟨n' - 1, by omega⟩
    unfold definitionsWithin
    refine bind_same fun first rest hread => bind_same fun t behind hpeek => ?_
    have := steady_definition.shrinks trivial hread
    have := steady_peek.shrinks trivial hpeek
    by_cases hend : t = .eof
    · rw [if_pos hend, if_pos hend]
    · rw [if_neg hend, if_neg hend]
      have hmore : definitionsWithin n bound behind = definitionsWithin m bound behind :=
        ih (by omega) (by omega)
      show (definitionsWithin n bound behind >>= _) = (definitionsWithin m bound behind >>= _)
      rw [hmore]

/-- **Definitions are read in the same way within all bounds that are more than the number of
tokens**, so the bound of `definitions` hides nothing. -/
theorem definitionsWithin_eq {n bound : Nat} {ts : List Token} (hn : ts.length < n)
    (hbound : ts.length < bound) : definitionsWithin n bound ts = definitions (ts.length + 1) ts :=
  (agree_definitionsWithin hn (Nat.lt_succ_self _)).trans
    ((steady_definitionsWithin _).same trivial hbound (Nat.lt_succ_self _))

end Reader

end SchemaLoom.Sdl
