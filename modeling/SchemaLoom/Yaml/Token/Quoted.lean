/-
Quoted scalars.

Between quotation marks a line break counts as a space, and further line breaks count as
themselves.  In single quotes only the quotation mark is special, written twice; in double
quotes a backslash starts an escape.  The text is spelled, since an escape may name a surrogate.

Every piece of a quoted scalar takes at least one character: `length_quotedPiece_lt`.
-/
import SchemaLoom.Outcome
import SchemaLoom.Text.Escape
import SchemaLoom.Yaml.Cursor

namespace SchemaLoom.Yaml

/-- The characters with an escape of one letter. -/
def letterEscapes : List (Char × Char) :=
  [('0', '\x00'), ('a', '\x07'), ('b', '\x08'), ('t', '\t'), ('\t', '\t'), ('n', '\n'),
    ('v', '\x0b'), ('f', '\x0c'), ('r', '\r'), ('e', '\x1b'), (' ', ' '), ('"', '"'),
    ('\\', '\\'), ('/', '/'), ('N', '\x85'), ('_', '\xa0'), ('L', '\u2028'), ('P', '\u2029')]

/-- The number of digits of a numeric escape. -/
def escapeWidth? : Char → Option Nat
  | 'x' => some 2
  | 'u' => some 4
  | 'U' => some 8
  | _ => none

/-- The spelling of a code point, if there is such a code point. -/
def spellingOfCode (code : Nat) : Except Fault (List Char) :=
  if 0x80000000 ≤ code then .error .beyondMachine
  else if 0x110000 ≤ code then .error .outOfRange
  else .ok (spell code)

/-- The spelling of a numeric escape with `width` digits. -/
def numericEscape (width : Nat) (c : Cursor) : Except Fault (List Char) :=
  let digits := c.rest.take width
  if digits.length < width || !digits.all fun c => (Text.hexValue? c).isSome then .error .malformed
  else spellingOfCode (naturalOfHex digits)
where
  /-- The natural that hexadecimal digits denote. -/
  naturalOfHex (digits : List Char) : Nat :=
    digits.foldl (fun n c => n * 16 + (Text.hexValue? c).getD 0) 0

/-- A part of a scalar and the position behind it. -/
abbrev Reading := Except Fault (List Char × Cursor)

/-- The line breaks in front of the next character that counts. -/
def foldedBreaks (c : Cursor) : Reading :=
  if startsWithSeparator c.rest then .error .malformed
  else
    match _h : (c.skipWhile isBlank).lineBreak? with
    | none => .ok ([], c.skipWhile isBlank)
    | some (b, d) => (foldedBreaks d).map fun r => (b :: r.1, r.2)
termination_by c.rest.length
decreasing_by
  exact Nat.lt_of_lt_of_le (Cursor.length_lineBreak?_lt _h) (c.length_skipWhile_le isBlank)

/-- What blanks and line breaks between two words count as. -/
def foldedSpace (c : Cursor) : Reading :=
  match (c.skipWhile isBlank).lineBreak? with
  | some (b, d) =>
    (foldedBreaks d).map fun r =>
      if b ≠ '\n' then (b :: r.1, r.2) else if r.1.isEmpty then ([' '], r.2) else r
  | none =>
    if (c.skipWhile isBlank).rest.isEmpty then .error .malformed
    else .ok (c.rest.takeWhile isBlank, c.skipWhile isBlank)

/-- What an escape stands for; the backslash is behind. -/
def escaped (c : Cursor) : Reading :=
  match c.rest with
  | [] => .error .malformed
  | ch :: _ =>
    match letterEscapes.lookup ch with
    | some char => .ok ([char], c.forward 1)
    | none =>
      match escapeWidth? ch with
      | some width =>
        (numericEscape width (c.forward 1)).map fun text => (text, c.forward (1 + width))
      | none =>
        match c.lineBreak? with
        | some (_, d) => foldedBreaks d
        | none => .error .malformed

/-- The next piece of a quoted scalar; no piece at the closing quotation mark. -/
def quotedPiece (mark : Char) (c : Cursor) : Except Fault (Option (List Char) × Cursor) :=
  match c.rest with
  | [] => .error .malformed
  | ch :: rest =>
    if ch = mark then
      if mark = '\'' ∧ rest.head? = some '\'' then .ok (some ['\''], c.forward 2)
      else .ok (none, c.forward 1)
    else if mark = '"' ∧ ch = '\\' then (escaped (c.forward 1)).map fun r => (some r.1, r.2)
    else if isBlank ch || isBreak ch then (foldedSpace c).map fun r => (some r.1, r.2)
    else .ok (some [ch], c.forward 1)

/-! ### Progress -/

theorem length_foldedBreaks_le {c d : Cursor} {text : List Char}
    (h : foldedBreaks c = .ok (text, d)) : d.rest.length ≤ c.rest.length := by
  fun_induction foldedBreaks c generalizing text with
  | case1 => cases h
  | case2 c => cases h; exact c.length_skipWhile_le isBlank
  | case3 c _ b e he ih =>
    obtain ⟨r, hr, h⟩ := Outcome.of_map_eq_ok h
    cases h
    exact Nat.le_trans (ih hr)
      (Nat.le_trans (Nat.le_of_lt (Cursor.length_lineBreak?_lt he)) (c.length_skipWhile_le isBlank))

theorem length_foldedSpace_lt {c d : Cursor} {text : List Char} {ch : Char}
    (hc : c.rest.head? = some ch) (hch : (isBlank ch || isBreak ch) = true)
    (h : foldedSpace c = .ok (text, d)) : d.rest.length < c.rest.length := by
  unfold foldedSpace at h
  split at h
  · next b e he =>
    obtain ⟨r, hr, h⟩ := Outcome.of_map_eq_ok h
    have hd : d = r.2 := by
      split at h
      · cases h; rfl
      · split at h <;> cases h <;> rfl
    rw [hd]
    exact Nat.lt_of_le_of_lt (length_foldedBreaks_le hr)
      (Nat.lt_of_lt_of_le (Cursor.length_lineBreak?_lt he) (c.length_skipWhile_le isBlank))
  · next he =>
    split at h
    · cases h
    · cases h
      by_cases hb : isBlank ch
      · exact Cursor.length_skipWhile_lt hc hb
      · have hs : c.skipWhile isBlank = c := by
          obtain ⟨cs, hcs⟩ := List.head?_eq_some_iff.1 hc
          simp [Cursor.skipWhile, hcs, hb, Cursor.forward]
        rw [hs] at he
        exact absurd he (Cursor.lineBreak?_ne_none hc (by simpa [hb] using hch))

theorem length_escaped_le {c d : Cursor} {text : List Char} (h : escaped c = .ok (text, d)) :
    d.rest.length ≤ c.rest.length := by
  unfold escaped at h
  split at h
  · cases h
  · split at h
    · cases h; exact c.length_forward_le 1
    · split at h
      · obtain ⟨_, _, h⟩ := Outcome.of_map_eq_ok h
        cases h
        exact c.length_forward_le _
      · split at h
        · next he =>
          exact Nat.le_trans (length_foldedBreaks_le h)
            (Nat.le_of_lt (Cursor.length_lineBreak?_lt he))
        · cases h

theorem length_quotedPiece_lt {mark : Char} {c d : Cursor} {piece : Option (List Char)}
    (h : quotedPiece mark c = .ok (piece, d)) : d.rest.length < c.rest.length := by
  unfold quotedPiece at h
  split at h
  · cases h
  · next ch rest hc =>
    have hne : c.rest ≠ [] := by simp [hc]
    have ahead : ∀ n, 0 < n → (c.forward n).rest.length < c.rest.length := fun _ hn =>
      Cursor.length_forward_lt hn hne
    split at h
    · split at h <;> cases h <;> exact ahead _ (by decide)
    · split at h
      · obtain ⟨r, hr, h⟩ := Outcome.of_map_eq_ok h
        cases h
        exact Nat.lt_of_le_of_lt (length_escaped_le hr) (ahead 1 (by decide))
      · split at h
        · next hch =>
          obtain ⟨r, hr, h⟩ := Outcome.of_map_eq_ok h
          cases h
          exact length_foldedSpace_lt (by simp [hc]) hch hr
        · cases h
          exact ahead 1 (by decide)

/-! ### Whole scalars -/

/-- The text up to the closing quotation mark. -/
def quoted (mark : Char) (c : Cursor) : Reading :=
  match _h : quotedPiece mark c with
  | .error fault => .error fault
  | .ok (none, d) => .ok ([], d)
  | .ok (some piece, d) => (quoted mark d).map fun r => (piece ++ r.1, r.2)
termination_by c.rest.length
decreasing_by exact length_quotedPiece_lt _h

end SchemaLoom.Yaml
