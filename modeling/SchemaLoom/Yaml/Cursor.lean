/-
Positions in YAML text.

A `Cursor` is a position together with what follows it.  Readers take a cursor and return the one
behind what they have read, so that line and column are always at hand.  The lemmas say what
follows a cursor that was moved; from them it is seen that readers come to an end.
-/
import SchemaLoom.Yaml.Token

namespace SchemaLoom.Yaml

/-- A position in a text and what follows it. -/
structure Cursor where
  rest : List Char
  index : Nat := 0
  line : Nat := 0
  column : Nat := 0

namespace Cursor

/-- The position behind the next character.  A byte-order mark takes no column. -/
def next (c : Cursor) : Cursor :=
  match c.rest with
  | [] => c
  | ch :: rest =>
    if isBreak ch && !(ch == '\r' && rest.head? == some '\n') then
      { rest, index := c.index + 1, line := c.line + 1, column := 0 }
    else { c with rest, index := c.index + 1, column := c.column + if ch = '\uFEFF' then 0 else 1 }

theorem rest_next (c : Cursor) : c.next.rest = c.rest.drop 1 := by
  unfold next
  split
  · next h => simp [h]
  · next ch rest h =>
    rw [h]
    split <;> rfl

/-- The position a number of characters further on. -/
def forward : Nat → Cursor → Cursor
  | 0, c => c
  | n + 1, c => forward n c.next

theorem rest_forward (n : Nat) (c : Cursor) : (c.forward n).rest = c.rest.drop n := by
  induction n generalizing c with
  | zero => rfl
  | succ n ih => rw [forward, ih, rest_next, List.drop_drop, Nat.add_comm]

theorem length_forward_le (n : Nat) (c : Cursor) : (c.forward n).rest.length ≤ c.rest.length := by
  simp [rest_forward]

theorem length_forward_lt {n : Nat} {c : Cursor} (hn : 0 < n) (h : c.rest ≠ []) :
    (c.forward n).rest.length < c.rest.length := by
  have := List.length_pos_iff.2 h
  simp only [rest_forward, List.length_drop]
  omega

/-- The position behind the characters of a class. -/
def skipWhile (p : Char → Bool) (c : Cursor) : Cursor := c.forward (c.rest.takeWhile p).length

theorem length_skipWhile_le (p : Char → Bool) (c : Cursor) :
    (c.skipWhile p).rest.length ≤ c.rest.length :=
  length_forward_le _ c

theorem length_skipWhile_lt {p : Char → Bool} {c : Cursor} {ch : Char} (hc : c.rest.head? = some ch)
    (hp : p ch = true) : (c.skipWhile p).rest.length < c.rest.length := by
  obtain ⟨cs, hcs⟩ := List.head?_eq_some_iff.1 hc
  refine length_forward_lt ?_ (by simp [hcs])
  simp [hcs, hp]

/-! ### Line breaks -/

/-- The line break that a character counts as in a scalar. -/
def breakOf? (ch : Char) : Option Char :=
  if ch = '\n' ∨ ch = '\r' ∨ ch = '\x85' then some '\n'
  else if ch = '\u2028' ∨ ch = '\u2029' then some ch
  else none

/-- The line break at a position, as it counts in a scalar, and the position behind it. -/
def lineBreak? (c : Cursor) : Option (Char × Cursor) :=
  match c.rest with
  | '\r' :: '\n' :: _ => some ('\n', c.forward 2)
  | ch :: _ => (breakOf? ch).map fun b => (b, c.forward 1)
  | [] => none

theorem length_lineBreak?_lt {c d : Cursor} {b : Char} (h : c.lineBreak? = some (b, d)) :
    d.rest.length < c.rest.length := by
  unfold lineBreak? at h
  split at h
  · next hc =>
    cases h
    exact length_forward_lt (by decide) (by simp [hc])
  · next hc =>
    obtain ⟨_, _, h⟩ := Option.map_eq_some_iff.1 h
    cases h
    exact length_forward_lt (by decide) (by simp [hc])
  · cases h

theorem lineBreak?_ne_none {c : Cursor} {ch : Char} (hc : c.rest.head? = some ch)
    (hb : isBreak ch = true) : c.lineBreak? ≠ none := by
  obtain ⟨cs, hcs⟩ := List.head?_eq_some_iff.1 hc
  have : breakOf? ch ≠ none := by
    simp only [isBreak, Bool.or_eq_true, beq_iff_eq] at hb
    unfold breakOf?
    grind
  unfold lineBreak?
  rw [hcs]
  split <;> simp_all

/-- The position behind spaces and a comment. -/
def skipComment (c : Cursor) : Cursor :=
  let c := c.skipWhile (· = ' ')
  if c.rest.head? = some '#' then c.skipWhile (!isBreak ·) else c

theorem length_skipComment_le (c : Cursor) : c.skipComment.rest.length ≤ c.rest.length := by
  unfold skipComment
  dsimp only
  split
  · exact Nat.le_trans (length_skipWhile_le _ _) (length_skipWhile_le _ _)
  · exact length_skipWhile_le _ _

end Cursor

end SchemaLoom.Yaml
