/-
Writing YAML scalars.

A writer knows the column it has reached and whether it has written anything but indentation
and marks on the line.  A scalar is written plainly if it would be read back with its own tag
and nothing in it is special; otherwise in single quotes; in double quotes if it holds
characters that only escapes can show.  Long scalars are folded at single spaces once the
column is beyond the width.
-/
import SchemaLoom.Text.Escape
import SchemaLoom.Yaml.Scalar

namespace SchemaLoom.Yaml

/-- The state of a writer. -/
structure Writer where
  text : String := ""
  column : Nat := 0
  /-- The last character separates words. -/
  spaced : Bool := true
  /-- Only indentation and marks stand on the line. -/
  indenting : Bool := true
  /-- The end of the text needs a mark. -/
  openEnded : Bool := false

namespace Writer

/-- Writes characters. -/
def put (s : String) (w : Writer) : Writer :=
  { w with text := w.text ++ s, column := w.column + s.length }

/-- Writes a line break, perhaps another one than usual. -/
def newline (w : Writer) (c : Char := '\n') : Writer :=
  { w with text := w.text.push c, column := 0, spaced := true, indenting := true }

/-- Writes a mark, with a space in front of it where one is needed. -/
def mark (s : String) (apart : Bool) (w : Writer) (spaced indenting : Bool := false) : Writer :=
  let w := w.put (if w.spaced || !apart then s else " " ++ s)
  { w with spaced, indenting := w.indenting && indenting, openEnded := false }

/-- Goes to a column, on a new line if something stands there already. -/
def indentTo (indent : Nat) (w : Writer) : Writer :=
  let w :=
    if !w.indenting || indent < w.column || (w.column == indent && !w.spaced) then w.newline else w
  if w.column < indent then
    { w.put (String.ofList (List.replicate (indent - w.column) ' ')) with spaced := true }
  else w

/-- Says that a word has just been written. -/
def afterWord (w : Writer) : Writer := { w with spaced := false, indenting := false }

end Writer

/-! ### Looking at a scalar -/

/-- The character `c` breaks a line when a scalar is written. -/
def isWrittenBreak (c : Char) : Bool := c == '\n' || c == '\x85' || c == '\u2028' || c == '\u2029'

/-- The character `c` can only be shown by an escape. -/
def needsEscape (c : Char) : Bool := !(c == '\n' || (' ' ≤ c && c ≤ '~'))

/-- The character, or the end of the scalar, separates words. -/
def separates : Option Char → Bool
  | none => true
  | some c => c == '\x00' || isBlank c || isBreak c

/-- The characters that mean something at the beginning of a plain scalar. -/
def leadingMarks : List Char := "#,[]\x7b\x7d&*!|>'\"%@\x60".toList

/-- A plain scalar cannot begin like this. -/
def startsLikeMark : List Char → Bool
  | [] => false
  | c :: rest =>
    leadingMarks.contains c || ((c == '?' || c == ':' || c == '-') && separates rest.head?)

/-- A colon in front of a space, or a number sign behind one, stands behind `before`. -/
def holdsMark (before : Char) : List Char → Bool
  | [] => false
  | c :: rest =>
    (c == ':' && separates rest.head?) || (c == '#' && separates (some before)) || holdsMark c rest

/-- A character with `q` follows one with `p` somewhere. -/
def holdsPair (p q : Char → Bool) : List Char → Bool
  | c :: d :: rest => (p c && q d) || holdsPair p q (d :: rest)
  | _ => false

/-- The scalar spans lines. -/
def spansLines (cs : List Char) : Bool := cs.any isWrittenBreak

/-- The scalar is fit for single quotes. -/
def fitsSingle (cs : List Char) : Bool :=
  !cs.any needsEscape && !holdsPair isWrittenBreak (· == ' ') cs
    && !holdsPair (· == ' ') isWrittenBreak cs

/-- The scalar is fit for being written plainly. -/
def fitsPlain (cs : List Char) : Bool :=
  let atEnd := fun (o : Option Char) => o.any fun c => c == ' ' || isWrittenBreak c
  let marked :=
    startsLikeMark cs || cs.take 3 == ['-', '-', '-'] || cs.take 3 == ['.', '.', '.']
      || (match cs with | c :: rest => holdsMark c rest | [] => false)
  fitsSingle cs && !spansLines cs && !atEnd cs.head? && !atEnd cs.getLast? && !marked

/-- The scalar is fit for a block. -/
def fitsBlock (cs : List Char) : Bool :=
  !cs.isEmpty && cs.getLast? != some ' ' && !cs.any needsEscape
    && !holdsPair (· == ' ') isWrittenBreak cs

/-! ### Styles -/

/-- The kinds of characters that folding tells apart. -/
inductive RunKind where
  | space | break_ | word
  deriving DecidableEq

/-- The kind of a character. -/
def runKind (c : Char) : RunKind :=
  if c = ' ' then .space else if isWrittenBreak c then .break_ else .word

/-- The longest pieces of a text with characters of one kind. -/
def runs : List Char → List (RunKind × List Char)
  | [] => []
  | c :: cs =>
    match runs cs with
    | (kind, run) :: rest =>
      if kind = runKind c then (kind, c :: run) :: rest else (runKind c, [c]) :: (kind, run) :: rest
    | [] => [(runKind c, [c])]

/-- How scalars are laid out. -/
structure Margins where
  /-- The column behind which scalars are folded. -/
  width : Nat
  /-- The column at which a folded scalar goes on. -/
  indent : Nat
  /-- A scalar may be folded at all. -/
  folds : Bool

/-- Writes the pieces of a plain scalar. -/
def plainRuns (m : Margins) (w : Writer) : List (RunKind × List Char) → Writer
  | [] => w
  | (kind, run) :: rest =>
    let w :=
      if kind = .space ∧ run.length = 1 ∧ m.width < w.column ∧ m.folds then
        (w.indentTo m.indent).afterWord
      else w.put (String.ofList run)
    plainRuns m w rest

/-- Writes a plain scalar. -/
def writePlain (m : Margins) (isRoot : Bool) (cs : List Char) (w : Writer) : Writer :=
  let w := { w with openEnded := w.openEnded || isRoot }
  if cs.isEmpty then w
  else plainRuns m (if w.spaced then w else w.put " ").afterWord (runs cs)

/-- Writes line breaks. -/
def writeBreaks (w : Writer) (breaks : List Char) : Writer :=
  breaks.foldl (fun w c => w.newline c) w

/-- Writes the pieces of a scalar in single quotes; `first` holds at its beginning. -/
def singleRuns (m : Margins) (first : Bool) (w : Writer) : List (RunKind × List Char) → Writer
  | [] => w
  | (kind, run) :: rest =>
    let w :=
      match kind with
      | .space =>
        if run.length = 1 ∧ m.width < w.column ∧ m.folds ∧ first = false ∧ rest.isEmpty = false then
          w.indentTo m.indent
        else w.put (String.ofList run)
      | .break_ =>
        let w := if run.head? = some '\n' then w.newline else w
        (writeBreaks w run).indentTo m.indent
      | .word => w.put (String.ofList (run.flatMap fun c => if c = '\'' then ['\'', '\''] else [c]))
    singleRuns m false w rest

/-- Writes a scalar in single quotes. -/
def writeSingle (m : Margins) (cs : List Char) (w : Writer) : Writer :=
  (singleRuns m true (w.mark "'" true) (runs cs)).mark "'" false

/-- The escapes of one letter in written scalars. -/
def writtenEscapes : List (Char × Char) :=
  [('\x00', '0'), ('\x07', 'a'), ('\x08', 'b'), ('\t', 't'), ('\n', 'n'), ('\x0b', 'v'),
    ('\x0c', 'f'), ('\r', 'r'), ('\x1b', 'e'), ('"', '"'), ('\\', '\\'), ('\x85', 'N'),
    ('\xa0', '_'), ('\u2028', 'L'), ('\u2029', 'P')]

/-- The escape of a character that has none of one letter. -/
def numericEscapeOf (code : Nat) : List Char :=
  if code < 0x100 then 'x' :: Text.hexDigits true 2 code
  else if code < 0x10000 then 'u' :: Text.hexDigits true 4 code
  else 'U' :: Text.hexDigits true 8 code

/-- The escape of a code point; a surrogate is no character that has one of one letter. -/
def escapeOf (code : Nat) : String :=
  String.ofList <| '\\' ::
    match if Text.isSurrogate code then none else writtenEscapes.lookup (Char.ofNat code) with
    | some letter => [letter]
    | none => numericEscapeOf code

/-- Folds a scalar in double quotes; a space that comes next is escaped. -/
def foldDouble (m : Margins) (next : Option Nat) (w : Writer) : Writer :=
  let w := ((w.put "\\").indentTo m.indent).afterWord
  if next = some ' '.toNat then w.put "\\" else w

/-- Writes the code points of a scalar in double quotes.  `pending` was read but not yet written,
last character first; `first` holds at the beginning. -/
def doubleCodes (m : Margins) (first : Bool) (pending : List Char) (w : Writer) :
    List Nat → Writer
  | [] => w.put (String.ofList pending.reverse)
  | code :: rest =>
    let c := Char.ofNat code
    let inside := m.folds && !first && !rest.isEmpty
    if needsEscape c || c == '\n' || c == '"' || c == '\\' then
      let w := (w.put (String.ofList pending.reverse)).put (escapeOf code)
      let w := if inside && m.width + 1 < w.column then foldDouble m rest.head? w else w
      doubleCodes m false [] w rest
    else if inside && (c == ' ' || pending.isEmpty) && m.width < w.column + pending.length then
      let w := foldDouble m (some code) (w.put (String.ofList pending.reverse))
      doubleCodes m false [c] w rest
    else doubleCodes m false (c :: pending) w rest

/-- Writes a scalar in double quotes, given by its code points. -/
def writeDouble (m : Margins) (codes : List Nat) (w : Writer) : Writer :=
  (doubleCodes m true [] (w.mark "\"" true) codes).mark "\"" false

/-- What the header of a block says: the indentation if the first line does not show it, and what
becomes of the line breaks at the end. -/
def blockHints (cs : List Char) : String :=
  let indentation := if cs.head?.any fun c => c == ' ' || isWrittenBreak c then "2" else ""
  let ending :=
    match cs.reverse with
    | [] => ""
    | last :: before =>
      if !isWrittenBreak last then "-"
      else if before.isEmpty || before.head?.any isWrittenBreak then "+"
      else ""
  indentation ++ ending

/-- Writes the lines of a block. -/
def blockRuns (indent : Nat) (w : Writer) : List (List Char) → Writer
  | [] => w
  | run :: rest =>
    if run.any isWrittenBreak then blockRuns indent (writeBreaks w run) rest
    else
      let w := (w.indentTo indent).put (String.ofList run)
      blockRuns indent (if rest.isEmpty then w.newline else w) rest

/-- The lines of a text and the line breaks between them. -/
def lineRuns : List Char → List (List Char)
  | [] => []
  | c :: cs =>
    match lineRuns cs with
    | run :: rest =>
      if run.any isWrittenBreak == isWrittenBreak c then (c :: run) :: rest else [c] :: run :: rest
    | [] => [[c]]

/-- Writes a scalar as a block. -/
def writeBlock (m : Margins) (cs : List Char) (w : Writer) : Writer :=
  let hints := blockHints cs
  let w := w.mark ("|" ++ hints) true
  let w := { w with openEnded := w.openEnded || hints.toList.getLast? == some '+' }
  blockRuns m.indent w.newline (lineRuns cs)

end SchemaLoom.Yaml
