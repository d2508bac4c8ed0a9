/-
Dividing a text into tokens.

`lex` is total: it looks at the first character, takes the longest token that starts there and
goes on with the rest, which is shorter.  Spaces, tabs, commas, line breaks, byte-order marks and
comments separate tokens and are dropped.

The readers of numbers and quoted texts return the rest of the input; the lemmas beside them say
that the rest is no longer than what they were given, such as `readNumber_length`.
-/
import SchemaLoom.Number.Decimal
import SchemaLoom.Outcome
import SchemaLoom.Sdl.BlockText
import SchemaLoom.Sdl.Token
import SchemaLoom.Text.Escape

namespace SchemaLoom.Sdl

/-- The character `c` only separates tokens. -/
def isIgnored (c : Char) : Bool :=
  c == ' ' || c == '\t' || c == ',' || c == '\n' || c == '\r' || c == '\uFEFF'

/-- The character `c` ends a line. -/
def isLineBreak (c : Char) : Bool := c == '\n' || c == '\r'

/-- A name can start with the character `c`. -/
def isNameStart (c : Char) : Bool := c.isAlpha || c == '_'

/-- A name can go on with the character `c`. -/
def isNameContinue (c : Char) : Bool := c.isAlphanum || c == '_'

/-- The text `s` is a name of the language. -/
def isName (s : String) : Bool :=
  match s.toList with
  | [] => false
  | c :: cs => isNameStart c && cs.all isNameContinue

/-! ### Numbers -/

/-- A part of a number and the rest. -/
abbrev NumberPart := List Char × List Char

/-- A run of digits, which must not be empty. -/
def digitRun (cs : List Char) : Except LexFault NumberPart :=
  match cs with
  | c :: rest =>
    if isDigit c then .ok (c :: rest.takeWhile isDigit, rest.dropWhile isDigit)
    else .error (.digitExpected c)
  | [] => .error (.digitExpected none)

/-- The integer part of a number: a zero alone, or a run of digits. -/
def integerPart (cs : List Char) : Except LexFault NumberPart :=
  match cs with
  | '0' :: rest =>
    if rest.head?.any isDigit then .error (.digitAfterZero rest.head?) else .ok (['0'], rest)
  | cs => digitRun cs

/-- An optional fraction. -/
def fractionPart (cs : List Char) : Except LexFault NumberPart :=
  match cs with
  | '.' :: rest => (digitRun rest).map fun r => ('.' :: r.1, r.2)
  | cs => .ok ([], cs)

/-- An optional sign. -/
def signPart (cs : List Char) : NumberPart :=
  match cs with
  | c :: rest => if c = '-' ∨ c = '+' then ([c], rest) else ([], cs)
  | [] => ([], [])

/-- An optional exponent. -/
def exponentPart (cs : List Char) : Except LexFault NumberPart :=
  match cs with
  | c :: rest =>
    if c = 'e' ∨ c = 'E' then
      (digitRun (signPart rest).2).map fun r => (c :: (signPart rest).1 ++ r.1, r.2)
    else .ok ([], cs)
  | [] => .ok ([], [])

/-- An optional minus sign. -/
def minusPart (cs : List Char) : NumberPart :=
  match cs with
  | '-' :: rest => (['-'], rest)
  | cs => ([], cs)

/-- The number at the front of an input, and the rest.  A number touches no name and no point. -/
def readNumber (cs : List Char) : Except LexFault (Token × List Char) := do
  let minus := minusPart cs
  let whole ← integerPart minus.2
  let fraction ← fractionPart whole.2
  let exponent ← exponentPart fraction.2
  let rest := exponent.2
  if rest.head?.any (fun c => c == '.' || isNameStart c) then throw (.digitExpected rest.head?)
  let digits := String.ofList (minus.1 ++ whole.1 ++ fraction.1 ++ exponent.1)
  return (if fraction.1.isEmpty && exponent.1.isEmpty then .int digits else .float digits, rest)

theorem length_digitRun_lt {cs : List Char} {r : NumberPart} (h : digitRun cs = .ok r) :
    r.2.length < cs.length := by
  unfold digitRun at h
  split at h
  · split at h
    · cases h
      exact Nat.lt_succ_of_le (List.dropWhile_sublist _).length_le
    · cases h
  · cases h

theorem length_integerPart_lt {cs : List Char} {r : NumberPart} (h : integerPart cs = .ok r) :
    r.2.length < cs.length := by
  unfold integerPart at h
  split at h
  · split at h
    · cases h
    · cases h
      simp
  · exact length_digitRun_lt h

theorem length_fractionPart_le {cs : List Char} {r : NumberPart} (h : fractionPart cs = .ok r) :
    r.2.length ≤ cs.length := by
  unfold fractionPart at h
  split at h
  · obtain ⟨s, hs, h⟩ := Outcome.of_map_eq_ok h
    cases h
    have := length_digitRun_lt hs
    simp only [List.length_cons]
    omega
  · cases h
    exact Nat.le_refl _

theorem length_signPart_le (cs : List Char) : (signPart cs).2.length ≤ cs.length := by
  unfold signPart
  split
  · split <;> simp
  · simp

theorem length_exponentPart_le {cs : List Char} {r : NumberPart} (h : exponentPart cs = .ok r) :
    r.2.length ≤ cs.length := by
  unfold exponentPart at h
  split at h
  · next tail =>
    split at h
    · obtain ⟨s, hs, h⟩ := Outcome.of_map_eq_ok h
      cases h
      have := length_digitRun_lt hs
      have := length_signPart_le tail
      simp only [List.length_cons]
      omega
    · cases h
      exact Nat.le_refl _
  · cases h
    exact Nat.le_refl _

theorem length_minusPart_le (cs : List Char) : (minusPart cs).2.length ≤ cs.length := by
  unfold minusPart
  split <;> simp

/-- A number takes at least one character. -/
theorem readNumber_length {cs : List Char} {t : Token} {rest : List Char}
    (h : readNumber cs = .ok (t, rest)) : rest.length < cs.length := by
  unfold readNumber at h
  cases h1 : integerPart (minusPart cs).2 with
  | error e => simp [bind, Except.bind, h1] at h
  | ok whole =>
    cases h2 : fractionPart whole.2 with
    | error e => simp [bind, Except.bind, h1, h2] at h
    | ok fraction =>
      cases h3 : exponentPart fraction.2 with
      | error e => simp [bind, Except.bind, h1, h2, h3] at h
      | ok exponent =>
        have l1 := length_integerPart_lt h1
        have l2 := length_fractionPart_le h2
        have l3 := length_exponentPart_le h3
        have l0 := length_minusPart_le cs
        simp only [bind, Except.bind, h1, h2, h3, pure, Except.pure] at h
        split at h
        · cases h
        · cases h
          omega

/-! ### Quoted texts -/

/-- The characters with an escape of one letter. -/
def letterEscape? : Char → Option Char
  | '"' => some '"'
  | '\\' => some '\\'
  | '/' => some '/'
  | 'b' => some '\x08'
  | 'f' => some '\x0c'
  | 'n' => some '\n'
  | 'r' => some '\r'
  | 't' => some '\t'
  | _ => none

/-- The value of exactly four hexadecimal digits at the front of an input. -/
def hexUnit? : List Char → Option Nat
  | a :: b :: c :: d :: _ => do
    let a ← Text.hexValue? a
    let b ← Text.hexValue? b
    let c ← Text.hexValue? c
    let d ← Text.hexValue? d
    return ((a * 16 + b) * 16 + c) * 16 + d
  | _ => none

/-- The character with a code point, none for surrogates and beyond the last code point. -/
def scalar? (code : Nat) : Option Char :=
  if code < 0xD800 ∨ (0xE000 ≤ code ∧ code < 0x110000) then some (Char.ofNat code) else none

/-- The second half of a surrogate pair: what follows the first four digits. -/
def trailingUnit? : List Char → Option Nat
  | '\\' :: 'u' :: rest => (hexUnit? rest).filter fun u => 0xDC00 ≤ u && u < 0xE000
  | _ => none

/-- An escape of four digits, or of two that form a surrogate pair: its character and its length
behind the backslash. -/
def fixedEscape (cs : List Char) : Except LexFault (Char × Nat) :=
  let fault := .error (.badUnicodeEscape (String.ofList ('\\' :: 'u' :: cs.take 4)))
  match hexUnit? cs with
  | none => fault
  | some unit =>
    match scalar? unit with
    | some c => .ok (c, 5)
    | none =>
      if unit < 0xDC00 then
        match trailingUnit? (cs.drop 4) with
        | some low => .ok (Char.ofNat (0x10000 + (unit - 0xD800) * 0x400 + (low - 0xDC00)), 11)
        | none => fault
      else fault

/-- An escape of any number of digits in braces.  `seen` is what was read since the opening brace,
last character first, and `room` the number of characters that may still be read. -/
def bracedEscape (point : Nat) (seen : List Char) : Nat → List Char → Except LexFault (Char × Nat)
  | room + 1, c :: rest =>
    let fault :=
      .error (.badUnicodeEscape (String.ofList ('\\' :: 'u' :: '\x7b' :: (c :: seen).reverse)))
    if c = '\x7d' then
      match scalar? point with
      | some char => if seen.isEmpty then fault else .ok (char, seen.length + 3)
      | none => fault
    else
      match Text.hexValue? c with
      | some d => bracedEscape (point * 16 + d) (c :: seen) room rest
      | none => fault
  | _, _ => .error (.badUnicodeEscape (String.ofList ('\\' :: 'u' :: '\x7b' :: seen.reverse)))

/-- The character that an escape stands for, and its length behind the backslash. -/
def readEscape : List Char → Except LexFault (Char × Nat)
  | 'u' :: '\x7b' :: rest => bracedEscape 0 [] 9 rest
  | 'u' :: rest => fixedEscape rest
  | c :: _ =>
    match letterEscape? c with
    | some char => .ok (char, 1)
    | none => .error (.badEscape (String.ofList ['\\', c]))
  | [] => .error (.badEscape "\\")

/-- The text up to the closing quotation mark, and the rest. -/
def readString (cs : List Char) : Except LexFault (List Char × List Char) :=
  match cs with
  | [] => .error .unterminatedString
  | '"' :: rest => .ok ([], rest)
  | '\\' :: rest =>
    match readEscape rest with
    | .error fault => .error fault
    | .ok (char, taken) =>
      match readString (rest.drop taken) with
      | .error fault => .error fault
      | .ok (text, rest) => .ok (char :: text, rest)
  | c :: rest =>
    if isLineBreak c then .error .unterminatedString
    else
      match readString rest with
      | .error fault => .error fault
      | .ok (text, rest) => .ok (c :: text, rest)
termination_by cs.length
decreasing_by
  · simp only [List.length_cons, List.length_drop]
    omega
  · simp

theorem readString_length {cs text rest : List Char} (h : readString cs = .ok (text, rest)) :
    rest.length ≤ cs.length := by
  fun_induction readString cs generalizing text rest with
  | case1 => cases h
  | case2 => cases h; simp
  | case3 => cases h
  | case4 => cases h
  | case5 tail char taken hesc inner after hin ih =>
    cases h
    have := ih hin
    simp only [List.length_drop, List.length_cons] at *
    omega
  | case6 => cases h
  | case7 => cases h
  | case8 c tail _ _ hc inner after hin ih =>
    cases h
    have := ih hin
    simp only [List.length_cons]
    omega

/-- The lines up to the closing triple quotation mark, and the rest; `line` is what was read of the
current line, last character first. -/
def readBlock (line : List Char) : List Char → Except LexFault (List (List Char) × List Char)
  | '"' :: '"' :: '"' :: rest => .ok ([line.reverse], rest)
  | '\\' :: '"' :: '"' :: '"' :: rest => readBlock ('"' :: '"' :: '"' :: line) rest
  | '\r' :: '\n' :: rest => (readBlock [] rest).map fun r => (line.reverse :: r.1, r.2)
  | c :: rest =>
    if isLineBreak c then (readBlock [] rest).map fun r => (line.reverse :: r.1, r.2)
    else readBlock (c :: line) rest
  | [] => .error .unterminatedString

theorem readBlock_length {line cs : List Char} {lines : List (List Char)} {rest : List Char}
    (h : readBlock line cs = .ok (lines, rest)) : rest.length ≤ cs.length := by
  fun_induction readBlock line cs generalizing lines rest with
  | case1 => cases h; simp; omega
  | case2 line tail ih =>
    have := ih h
    simp only [List.length_cons]
    omega
  | case3 line tail ih =>
    obtain ⟨r, hr, he⟩ := Outcome.of_map_eq_ok h
    cases he
    have := ih hr
    simp only [List.length_cons]
    omega
  | case4 line c tail _ _ _ hc ih =>
    obtain ⟨r, hr, he⟩ := Outcome.of_map_eq_ok h
    cases he
    have := ih hr
    simp only [List.length_cons]
    omega
  | case5 line c tail _ _ _ hc ih =>
    have := ih h
    simp only [List.length_cons]
    omega
  | case6 => cases h

/-- The text of a block. -/
def blockValue (lines : List (List Char)) : String :=
  "\n".intercalate ((BlockText.dedent lines).map String.ofList)

/-! ### Tokens -/

/-- The quoted text whose opening quotation mark has been read, and the rest. -/
def readQuoted (cs : List Char) : Except LexFault (Token × List Char) :=
  match cs with
  | '"' :: '"' :: rest => (readBlock [] rest).map fun r => (.blockString (blockValue r.1), r.2)
  | cs => (readString cs).map fun r => (.string (String.ofList r.1), r.2)

theorem readQuoted_length {cs : List Char} {t : Token} {rest : List Char}
    (h : readQuoted cs = .ok (t, rest)) : rest.length ≤ cs.length := by
  unfold readQuoted at h
  split at h
  · obtain ⟨r, hr, he⟩ := Outcome.of_map_eq_ok h
    cases he
    have := readBlock_length hr
    simp only [List.length_cons]
    omega
  · obtain ⟨r, hr, he⟩ := Outcome.of_map_eq_ok h
    cases he
    exact readString_length hr

/-- The tokens of a text, ending with `eof`, or with `invalid` where no token can be read. -/
def lex (cs : List Char) : List Token :=
  match cs with
  | [] => [.eof]
  | c :: rest =>
    if isIgnored c then lex rest
    else if c = '#' then lex (rest.dropWhile (!isLineBreak ·))
    else if isNameStart c then
      .name (String.ofList (c :: rest.takeWhile isNameContinue)) ::
        lex (rest.dropWhile isNameContinue)
    else if c = '"' then
      match _h : readQuoted rest with
      | .ok (token, rest) => token :: lex rest
      | .error fault => [.invalid fault]
    else if isDigit c || c == '-' then
      match _h : readNumber (c :: rest) with
      | .ok (token, rest) => token :: lex rest
      | .error fault => [.invalid fault]
    else if c = '.' then
      match rest with
      | '.' :: '.' :: rest => .punctuator .spread :: lex rest
      | _ => [.invalid (.unexpectedCharacter c)]
    else
      match Punctuator.ofChar? c with
      | some mark => .punctuator mark :: lex rest
      | none => [.invalid (if c = '\'' then .singleQuote else .unexpectedCharacter c)]
termination_by cs.length
decreasing_by
  · simp
  · have := (List.dropWhile_sublist (l := rest) (!isLineBreak ·)).length_le
    simp only [List.length_cons]
    omega
  · have := (List.dropWhile_sublist (l := rest) isNameContinue).length_le
    simp only [List.length_cons]
    omega
  · have := readQuoted_length _h
    simp only [List.length_cons]
    omega
  · have := readNumber_length _h
    simpa using this
  · simp only [List.length_cons]
    omega
  · simp

end SchemaLoom.Sdl
