/-
Block text.

Block text stands between triple quotation marks and may span lines.  What it denotes is
independent of how deep it is indented: `dedent` drops the indentation that all lines but the
first share, and the blank lines at both ends.  `render` chooses a written form that reads back
to the same text.
-/
namespace SchemaLoom.Sdl.BlockText

/-- The character `c` counts as indentation. -/
def isIndentation (c : Char) : Bool := c == ' ' || c == '\t'

/-- The number of indentation characters in front of a line. -/
def leading (line : List Char) : Nat := (line.takeWhile isIndentation).length

/-- The line consists of indentation only. -/
def isEmptyLine (line : List Char) : Bool := line.all isIndentation

/-- The least indentation of the lines that are not empty, `none` without such a line. -/
def commonIndent (lines : List (List Char)) : Option Nat :=
  ((lines.filter (!isEmptyLine ·)).map leading).min?

/-- A list without the members in front of the first and behind the last that fails the test. -/
def trimWhile {α : Type} (p : α → Bool) (l : List α) : List α :=
  ((l.dropWhile p).reverse.dropWhile p).reverse

/-- The lines that a block denotes. -/
def dedent : List (List Char) → List (List Char)
  | [] => []
  | first :: rest =>
    let rest :=
      match commonIndent rest with
      | some n => rest.map (List.drop n)
      | none => rest
    trimWhile isEmptyLine (first :: rest)

/-- Triple quotation marks inside a block are written with a backslash. -/
def escapeQuotes : List Char → List Char
  | '"' :: '"' :: '"' :: rest => '\\' :: '"' :: '"' :: '"' :: escapeQuotes rest
  | c :: rest => c :: escapeQuotes rest
  | [] => []

/-- The text has several lines: block text breaks at line feeds alone, so that all other characters
that end a line elsewhere are part of one. -/
def hasSeveralLines (cs : List Char) : Bool := cs.contains '\n'

/-- A block of this text has its closing marks on a line of their own. -/
def spansLines (cs : List Char) : Bool :=
  hasSeveralLines cs || 70 < cs.length || cs.getLast? == some '"' || cs.getLast? == some '\\'

/-- A block of this text has its opening marks on a line of their own. -/
def opensLine (cs : List Char) : Bool :=
  spansLines cs && (hasSeveralLines cs || !(cs.head?.any isIndentation))

/-- The written form of block text. -/
def render (value : String) : String :=
  let cs := value.toList
  "\"\"\"" ++ (if opensLine cs then "\n" else "") ++ String.ofList (escapeQuotes cs)
    ++ (if spansLines cs then "\n" else "") ++ "\"\"\""

end SchemaLoom.Sdl.BlockText
