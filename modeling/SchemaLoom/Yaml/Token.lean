/-
Tokens of YAML text.

Indentation is part of the tokens: where a block of a new column begins or ends there is a
token for it.  As with schema documents, a text that cannot be divided has an `invalid` token
where the division stops.

An escape in a scalar may name a surrogate, which is no character.  So the text of a scalar token
is spelled: a mark announces the private character that stands for a surrogate.
-/
import SchemaLoom.Text.Escape

namespace SchemaLoom.Yaml

/-- Why a text denotes no tree.  All that is wrong with the form of a text is one fault; the others
are about scalars whose form is right, and about nesting. -/
inductive Fault where
  | malformed
  /-- A number or a time of day does not exist. -/
  | outOfRange
  /-- A code point, or a weight in a fraction, is beyond the range of machine numbers. -/
  | beyondMachine
  /-- A number has no digits at all. -/
  | emptyNumber
  /-- A scalar said to be a truth value is none. -/
  | unknownTruth
  /-- A scalar said to be a time is none. -/
  | unknownTime
  /-- A mapping is said to be a time. -/
  | timeInMapping
  /-- More collections stand inside each other than can be read. -/
  | nestedTooDeeply
  deriving DecidableEq, Repr

/-- A directive in front of a document. -/
inductive Directive where
  /-- The version of the language: the number before the point. -/
  | version (major : Nat)
  /-- A short form of tags. -/
  | handle (short long : String)
  | other
  deriving DecidableEq, Repr

/-- A token. -/
inductive Token where
  | directive (d : Directive)
  | documentStart | documentEnd | streamEnd
  | blockSequenceStart | blockMappingStart | blockEnd
  | flowSequenceStart | flowSequenceEnd | flowMappingStart | flowMappingEnd
  | blockEntry | flowEntry | key | value
  | anchor (name : String)
  /-- The name of an anchor in place of what is anchored. -/
  | reference (name : String)
  | tag (handle : Option String) (suffix : String)
  | scalar (text : String) (plain : Bool)
  | invalid (fault : Fault)
  deriving DecidableEq, Repr

/-! ### Characters -/

/-- The character `c` breaks a line. -/
def isBreak (c : Char) : Bool :=
  c == '\n' || c == '\r' || c == '\x85' || c == '\u2028' || c == '\u2029'

/-- The character `c` is a space or a tab. -/
def isBlank (c : Char) : Bool := c == ' ' || c == '\t'

/-- The character, or the end of the text, cannot belong to a word. -/
def endsWord : Option Char → Bool
  | none => true
  | some c => isBlank c || isBreak c

/-- The character, or the end of the text, is a space or ends a line. -/
def endsPart : Option Char → Bool
  | none => true
  | some c => c == ' ' || isBreak c

/-- The character `c` may stand in the text at all. -/
def isAllowed (c : Char) : Bool :=
  c == '\t' || c == '\n' || c == '\r' || c == '\x85' || (' ' ≤ c && c ≤ '~')
    || ('\xa0' ≤ c && c.toNat ≤ 0xFFFD) || 0x10000 ≤ c.toNat

/-- The character `c` may stand in the name of an anchor or a tag handle. -/
def isNameChar (c : Char) : Bool := c.isAlphanum || c == '-' || c == '_'

/-! ### Spelling -/

/-- The mark in spelled text.  It may not stand in a text, only be named by an escape. -/
def spellingMark : Char := '\x01'

/-- How far behind a surrogate the private character is that stands for it behind the mark. -/
def surrogateShift : Nat := 0x100000

/-- The spelling of a code point: the mark itself is doubled. -/
def spell (code : Nat) : List Char :=
  if Text.isSurrogate code then [spellingMark, Char.ofNat (code + surrogateShift)]
  else if code = spellingMark.toNat then [spellingMark, spellingMark]
  else [Char.ofNat code]

/-- The code points of a spelled text. -/
def spelledCodes : List Char → List Nat
  | [] => []
  | [c] => [c.toNat]
  | c :: d :: rest =>
    if c ≠ spellingMark then c.toNat :: spelledCodes (d :: rest)
    else (if d = spellingMark then d.toNat else d.toNat - surrogateShift) :: spelledCodes rest

/-! ### Separators -/

/-- A line that starts here separates documents. -/
def startsWithMarker (marker : Char) (cs : List Char) : Bool :=
  cs.take 3 == [marker, marker, marker] && endsWord cs[3]?

/-- A line that starts here begins or ends a document. -/
def startsWithSeparator (cs : List Char) : Bool :=
  startsWithMarker '-' cs || startsWithMarker '.' cs

end SchemaLoom.Yaml
