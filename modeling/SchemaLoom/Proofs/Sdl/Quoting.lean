/-
Quoted texts are read back.

A text on one line is read back character by character (`readString_controlQuotedChar`).  Block
text is read back if it is dedented, as every block is that was read: then its lines neither
begin nor end with a blank one, and one of them, if there are several, starts in the first
column.  Wherever the block is moved, that line tells how far, and reading undoes the move.  The
lemmas on blocks are in `Proofs.Sdl.Block`; this module is on single lines.
-/
import SchemaLoom.Proofs.Sdl.Writing

namespace SchemaLoom.Sdl

open Text

/-! ### On one line

Each character is quoted by itself, as it stands, by an escape of one letter, or by its code.
-/

theorem readString_escape {cs : List Char} {c : Char} {taken : Nat}
    (h : readEscape cs = .ok (c, taken)) :
    readString ('\\' :: cs) = (readString (cs.drop taken)).map fun r => (c :: r.1, r.2) := by
  rw [readString, h]
  simp only
  cases readString (cs.drop taken) <;> rfl

theorem readEscape_letter {letter c : Char} (h : letterEscape? letter = some c) (cs : List Char) :
    readEscape (letter :: cs) = .ok (c, 1) := by
  have hother : letter ≠ 'u' := by
    rintro rfl
    cases h
  unfold readEscape
  split
  next hsame => exact absurd (List.cons.inj hsame).1 hother
  next hsame => exact absurd (List.cons.inj hsame).1 hother
  next hsame =>
    obtain ⟨rfl, -⟩ := List.cons.inj hsame
    rw [h]
  next hsame => cases hsame

theorem readString_letter {letter c : Char} (h : letterEscape? letter = some c) (cs : List Char) :
    readString ('\\' :: letter :: cs) = (readString cs).map fun r => (c :: r.1, r.2) :=
  readString_escape (readEscape_letter h cs)

theorem readString_plain {c : Char} (hquote : c ≠ '"') (hslash : c ≠ '\\')
    (hline : isLineBreak c = false) (cs : List Char) :
    readString (c :: cs) = (readString cs).map fun r => (c :: r.1, r.2) := by
  rw [readString]
  · rw [hline, if_neg Bool.false_ne_true]
    cases readString cs <;> rfl
  · exact fun h => hquote h
  · exact fun h => hslash h

theorem hexValue?_hexDigit : ∀ d < 16, hexValue? (hexDigit true d) = some d := by decide

/-- The four digits of a code that takes two. -/
theorem hexDigits_four {code : Nat} (h : code < 256) :
    hexDigits true 4 code = ['0', '0', hexDigit true (code / 16), hexDigit true (code % 16)] := by
  have hhigh : code / 16 / 16 = 0 := by omega
  have hlow : code / 16 % 16 = code / 16 := by omega
  simp [hexDigits, hhigh, hlow]
  decide

theorem readEscape_hexDigits {c : Char} (h : c.toNat < 256) (cs : List Char) :
    readEscape ('u' :: (hexDigits true 4 c.toNat ++ cs)) = .ok (c, 5) := by
  rw [hexDigits_four h]
  have hunit : hexUnit? ('0' :: '0' :: hexDigit true (c.toNat / 16) :: hexDigit true (c.toNat % 16)
      :: cs) = some c.toNat := by
    have hzero : hexValue? '0' = some 0 := by decide
    simp only [hexUnit?, hzero, hexValue?_hexDigit _ (show c.toNat / 16 < 16 by omega),
      hexValue?_hexDigit _ (show c.toNat % 16 < 16 by omega), Option.pure_def, Option.bind_eq_bind,
      Option.bind_some, Option.some.injEq]
    omega
  have hscalar : scalar? c.toNat = some c := by
    rw [scalar?, if_pos (Or.inl (by omega)), Char.ofNat_toNat]
  show fixedEscape ('0' :: '0' :: hexDigit true (c.toNat / 16) :: hexDigit true (c.toNat % 16)
      :: cs) = _
  rw [fixedEscape, hunit]
  simp only [hscalar]

/-- **A character is read back from its quoted form.** -/
theorem readString_controlQuotedChar (c : Char) (cs : List Char) :
    readString (controlQuotedChar c ++ cs) = (readString cs).map fun r => (c :: r.1, r.2) := by
  unfold controlQuotedChar
  split
  next h => exact readString_letter (by rcases h with rfl | rfl <;> rfl) cs
  next hmarks =>
  split
  next h => subst h; exact readString_letter rfl cs
  next hfeed =>
  split
  next h => subst h; exact readString_letter rfl cs
  next hreturn =>
  split
  next h => subst h; exact readString_letter rfl cs
  split
  next h => subst h; exact readString_letter rfl cs
  split
  next h => subst h; exact readString_letter rfl cs
  split
  next h =>
    have hsmall : c.toNat < 256 := by omega
    have hrest : (('u' :: (hexDigits true 4 c.toNat ++ cs)).drop 5) = cs := by
      rw [hexDigits_four hsmall]
      rfl
    rw [List.cons_append, List.cons_append, readString_escape (readEscape_hexDigits hsmall cs),
      hrest]
  · rw [not_or] at hmarks
    exact readString_plain hmarks.1 hmarks.2 (by simp [isLineBreak, hfeed, hreturn]) cs

theorem readString_controlQuoted (text cs : List Char) :
    readString (text.flatMap controlQuotedChar ++ '"' :: cs) = .ok (text, cs) := by
  induction text with
  | nil => rw [List.flatMap_nil, List.nil_append, readString]
  | cons c text ih =>
    rw [List.flatMap_cons, List.append_assoc, readString_controlQuotedChar, ih]
    rfl

/-- No character is quoted by a line break or begins with a quotation mark. -/
theorem controlQuotedChar_plain (c : Char) :
    (∀ d ∈ controlQuotedChar c, d ≠ '\n') ∧ ∃ d ds, controlQuotedChar c = d :: ds ∧ d ≠ '"' := by
  have hdigit : ∀ d < 16, hexDigit true d ≠ '\n' := by decide
  unfold controlQuotedChar
  split
  next h => rcases h with rfl | rfl <;> simp
  next hmarks =>
  split
  next => simp
  next hfeed =>
  iterate 4
    split
    next => simp
  split
  next h =>
    rw [hexDigits_four (by omega)]
    have hhigh := hdigit (c.toNat / 16) (by omega)
    have hlow := hdigit (c.toNat % 16) (by omega)
    simp [hhigh, hlow]
  · rw [not_or] at hmarks
    simp [hfeed, hmarks.1]

theorem lex_quote {cs rest : List Char} {t : Token} (h : readQuoted cs = .ok (t, rest)) :
    lex ('"' :: cs) = t :: lex rest := by
  rw [lex.eq_def]
  simp only [show isIgnored '"' = false by decide, show isNameStart '"' = false by decide,
    Bool.false_eq_true, ↓reduceIte, show ('"' : Char) ≠ '#' by decide]
  split
  next h' => rw [h] at h'; cases h'; rfl
  next h' => rw [h] at h'; cases h'

/-- **A text quoted on one line is read back.** -/
theorem writes_controlQuoted (text : String) : Writes (controlQuoted text) [.string text] := by
  intro n rest hrest
  have hline : ∀ c ∈ (controlQuoted text).toList, c ≠ '\n' := by
    intro c hc
    rw [controlQuoted, String.toList_ofList] at hc
    simp only [List.cons_append, List.mem_cons, List.mem_append, List.mem_flatMap,
      List.not_mem_nil, or_false] at hc
    rcases hc with rfl | ⟨d, -, hc⟩ | rfl
    · decide
    · exact (controlQuotedChar_plain d).1 c hc
    · decide
  rw [shift_eq_self hline, controlQuoted, String.toList_ofList, List.cons_append, List.cons_append,
    List.append_assoc, List.singleton_append]
  refine lex_quote ?_
  unfold readQuoted
  split
  next after hblock =>
    -- Only an empty text begins with a mark, and what follows it does not.
    cases htext : text.toList with
    | nil =>
      rw [htext, List.flatMap_nil, List.nil_append, List.cons.injEq] at hblock
      exact absurd rfl (hrest '"' (by rw [hblock.2]; rfl)).2.2
    | cons c cs =>
      obtain ⟨-, d, ds, hchar, hquote⟩ := controlQuotedChar_plain c
      rw [htext, List.flatMap_cons, hchar, List.cons_append, List.cons_append,
        List.cons.injEq] at hblock
      exact absurd hblock.1 hquote
  · rw [readString_controlQuoted]
    simp [Except.map]

end SchemaLoom.Sdl
