/-
Block scalars.

The lines of a block scalar are indented further than what surrounds them.  A header says
what becomes of the line breaks at the end and may give the indentation; without it the first
line that holds something decides.  In a folded block a single line break between two lines
that start with text counts as a space.
-/
import SchemaLoom.Yaml.Cursor

namespace SchemaLoom.Yaml

/-- What becomes of the line breaks at the end of a block. -/
inductive Chomping where
  | clip | strip | keep
  deriving DecidableEq, Repr

/-- The header of a block. -/
structure BlockHeader where
  chomping : Chomping
  /-- The indentation relative to what surrounds the block, if it is given. -/
  increment : Option Nat

/-- The chomping that a sign asks for. -/
def chomping? : Char → Option Chomping
  | '+' => some .keep
  | '-' => some .strip
  | _ => none

/-- The indentation that a digit gives. -/
def increment? (c : Char) : Option Nat :=
  if '0' ≤ c ∧ c ≤ '9' then some (c.toNat - 48) else none

/-- The header and the position behind it; a sign and a digit may come in either order. -/
def blockHeader (c : Cursor) : Except Fault (BlockHeader × Cursor) :=
  let first := (c.rest.take 1).filter fun s => (chomping? s).isSome || (increment? s).isSome
  let other := fun (s : Char) =>
    if first.any fun f => (chomping? f).isSome then (increment? s).isSome
    else !first.isEmpty && (chomping? s).isSome
  let second := ((c.rest.drop first.length).take 1).filter other
  let signs := first ++ second
  let increment := signs.findSome? increment?
  let behind := c.forward signs.length
  if increment = some 0 || !endsPart behind.rest.head? then .error .malformed
  else .ok (⟨(signs.findSome? chomping?).getD .clip, increment⟩, behind)

/-- The position behind the line of the header, on which only a comment may stand. -/
def afterHeader (c : Cursor) : Except Fault Cursor :=
  match c.skipComment.lineBreak? with
  | some (_, d) => .ok d
  | none => if c.skipComment.rest.isEmpty then .ok c.skipComment else .error .malformed

/-- The widest indentation of the empty lines at the front of a block. -/
def leadingIndent (c : Cursor) : Nat :=
  match _h : c.rest.head? with
  | none => 0
  | some ch =>
    if ch = ' ' then max (c.column + 1) (leadingIndent (c.forward 1))
    else
      match _hd : c.lineBreak? with
      | some (_, d) => leadingIndent d
      | none => 0
termination_by c.rest.length
decreasing_by
  · exact Cursor.length_forward_lt (by decide) (by rintro hc; simp [hc] at _h)
  · exact Cursor.length_lineBreak?_lt _hd

/-- The position behind the spaces that lead up to a column. -/
def skipIndent (indent : Nat) (c : Cursor) : Cursor :=
  c.forward ((c.rest.take (indent - c.column)).takeWhile (· = ' ')).length

/-- The empty lines at the front of a block of an indentation: their breaks, and the position where
the first line that is not empty begins. -/
def emptyLines (indent : Nat) (c : Cursor) : List Char × Cursor :=
  match _h : (skipIndent indent c).lineBreak? with
  | none => ([], skipIndent indent c)
  | some (b, d) =>
    let (more, e) := emptyLines indent d
    (b :: more, e)
termination_by c.rest.length
decreasing_by
  exact Nat.lt_of_lt_of_le (Cursor.length_lineBreak?_lt _h) (Cursor.length_forward_le _ c)

theorem length_emptyLines_le (indent : Nat) (c : Cursor) :
    (emptyLines indent c).2.rest.length ≤ c.rest.length := by
  fun_induction emptyLines indent c with
  | case1 c => exact Cursor.length_forward_le _ c
  | case2 c b d h more e he ih =>
    rw [he] at ih
    exact Nat.le_trans ih
      (Nat.le_of_lt
        (Nat.lt_of_lt_of_le (Cursor.length_lineBreak?_lt h) (Cursor.length_forward_le _ c)))

/-- What two lines of a block are joined with, given the first, the break behind it, those of the
empty lines behind that, and the second line. -/
def joint (folded : Bool) (line : List Char) (ownBreak : Char) (breaks after : List Char) :
    List Char :=
  let startsWithText := fun (cs : List Char) => !cs.head?.any isBlank
  if folded && ownBreak == '\n' && startsWithText line && startsWithText after then
    (if breaks.isEmpty then [' '] else [])
  else [ownBreak]

/-- The breaks that a block ends with, given the one behind its last line and those behind that. -/
def ending (chomping : Chomping) (ownBreak breaks : List Char) : List Char :=
  (if chomping = .strip then [] else ownBreak) ++ (if chomping = .keep then breaks else [])

/-- The lines of a block behind empty lines with the breaks `before`: their text, and the position
behind them.  The breaks behind the last line come apart from its own. -/
def blockLines (folded : Bool) (indent : Nat) (chomping : Chomping) (before : List Char)
    (c : Cursor) :
    List Char × Cursor :=
  if c.column ≠ indent ∨ c.rest.isEmpty then (ending chomping [] before, c)
  else
    let line := c.rest.takeWhile (!isBreak ·)
    match _h : (c.skipWhile (!isBreak ·)).lineBreak? with
    | none => (before ++ line, c.skipWhile (!isBreak ·))
    | some (b, d) =>
      let breaks := (emptyLines indent d).1
      let after := (emptyLines indent d).2
      if after.column = indent ∧ after.rest.isEmpty = false then
        let (more, behind) := blockLines folded indent chomping breaks after
        (before ++ line ++ joint folded line b breaks after.rest ++ more, behind)
      else (before ++ line ++ ending chomping [b] breaks, after)
termination_by c.rest.length
decreasing_by
  exact Nat.lt_of_le_of_lt (length_emptyLines_le indent d)
    (Nat.lt_of_lt_of_le (Cursor.length_lineBreak?_lt _h) (c.length_skipWhile_le _))

/-- The text of a block scalar and the position behind it; the indicator is behind, and `outer` is
the indentation of what surrounds the block. -/
def blockScalar (folded : Bool) (outer : Int) (c : Cursor) : Except Fault (List Char × Cursor) := do
  let (header, c) ← blockHeader c
  let body ← afterHeader c
  let least := max (outer + 1) 1 |>.toNat
  let indent :=
    match header.increment with
    | some n => least + n - 1
    | none => max least (leadingIndent body)
  let (before, first) := emptyLines indent body
  return blockLines folded indent header.chomping before first

end SchemaLoom.Yaml
