/-
Dividing YAML text into tokens.

A plain word turns out to be a key only when a colon follows it on its line.  So the `Lexer`
remembers where a key may have begun, at most one `KeyPlace` for each nesting of brackets, and
notes the place when the colon comes.  `linearise` then puts the tokens for keys, and for the
mappings that begin with them, in front of the noted places.

Each step takes at least one character, so the number of characters bounds the steps (`run`).
-/
import SchemaLoom.Number.Decimal
import SchemaLoom.Yaml.Token.Block
import SchemaLoom.Yaml.Token.Quoted

namespace SchemaLoom.Yaml

/-! ### Words -/

/-- A plain scalar ends in front of these characters. -/
def endsPlain (inFlow : Bool) : List Char → Bool
  | [] => true
  | c :: rest =>
    endsWord (some c)
      || (c == ':' &&
        (endsWord rest.head? || (inFlow && rest.head?.any (",[]\x7b\x7d".toList.contains ·))))
      || (inFlow && ",?[]\x7b\x7d".toList.contains c)

/-- The word of a plain scalar at the front of `cs`. -/
def plainWord (inFlow : Bool) : List Char → List Char
  | [] => []
  | c :: rest => if endsPlain inFlow (c :: rest) then [] else c :: plainWord inFlow rest

/-- The further line breaks between two words of a plain scalar, and the position behind them;
`none` at a document separator. -/
def plainBreaks (c : Cursor) : Option (List Char) × Cursor :=
  match _h : (c.skipWhile (· = ' ')).lineBreak? with
  | none => (some [], c.skipWhile (· = ' '))
  | some (b, d) =>
    if startsWithSeparator d.rest then (none, d)
    else
      let (more, behind) := plainBreaks d
      (more.map (b :: ·), behind)
termination_by c.rest.length
decreasing_by exact Nat.lt_of_lt_of_le (Cursor.length_lineBreak?_lt _h) (c.length_skipWhile_le _)

/-- What stands between two words of a plain scalar. -/
structure PlainSpace where
  /-- What it counts as; nothing if the scalar ends here. -/
  text : List Char
  /-- A line break was passed. -/
  broken : Bool
  /-- The position behind it. -/
  cursor : Cursor

/-- What stands between two words of a plain scalar. -/
def plainSpace (c : Cursor) : PlainSpace :=
  match (c.skipWhile (· = ' ')).lineBreak? with
  | none => ⟨c.rest.takeWhile (· = ' '), false, c.skipWhile (· = ' ')⟩
  | some (b, d) =>
    if startsWithSeparator d.rest then ⟨[], true, d⟩
    else
      match (plainBreaks d).1 with
      | none => ⟨[], true, (plainBreaks d).2⟩
      | some breaks =>
        ⟨if b ≠ '\n' then b :: breaks else if breaks.isEmpty then [' '] else breaks, true,
          (plainBreaks d).2⟩

theorem length_plainBreaks_le (c : Cursor) : (plainBreaks c).2.rest.length ≤ c.rest.length := by
  fun_induction plainBreaks c with
  | case1 c => exact c.length_skipWhile_le _
  | case2 c b d h =>
    exact Nat.le_of_lt
      (Nat.lt_of_lt_of_le (Cursor.length_lineBreak?_lt h) (c.length_skipWhile_le _))
  | case3 c b d h _ more behind he ih =>
    rw [he] at ih
    exact Nat.le_trans ih
      (Nat.le_of_lt (Nat.lt_of_lt_of_le (Cursor.length_lineBreak?_lt h) (c.length_skipWhile_le _)))

theorem length_plainSpace_le (c : Cursor) : (plainSpace c).cursor.rest.length ≤ c.rest.length := by
  unfold plainSpace
  split
  · exact c.length_skipWhile_le _
  · next b d h =>
    have hd : d.rest.length ≤ c.rest.length :=
      Nat.le_of_lt (Nat.lt_of_lt_of_le (Cursor.length_lineBreak?_lt h) (c.length_skipWhile_le _))
    have hb := Nat.le_trans (length_plainBreaks_le d) hd
    split
    · exact hd
    · split <;> exact hb

/-- A plain scalar. -/
structure Plain where
  text : List Char
  /-- The scalar is followed by a line break that was read with it. -/
  broken : Bool
  cursor : Cursor

/-- The plain scalar at a position, whose words on further lines stand at `least` or right of it. -/
def plainScalar (inFlow : Bool) (least : Int) (space : List Char) (broken : Bool) (c : Cursor) :
    Plain :=
  if _h : plainWord inFlow c.rest = [] ∨ c.rest.head? = some '#' then ⟨[], broken, c⟩
  else
    let word := plainWord inFlow c.rest
    let s := plainSpace (c.forward word.length)
    let text := space ++ word
    if s.text.isEmpty ∨ s.cursor.rest.head? = some '#' ∨
        (inFlow = false ∧ s.cursor.column < least) then
      ⟨text, s.broken, s.cursor⟩
    else
      let more := plainScalar inFlow least s.text s.broken s.cursor
      { more with text := text ++ more.text }
termination_by c.rest.length
decreasing_by
  have hw : plainWord inFlow c.rest ≠ [] := fun h => _h (.inl h)
  refine Nat.lt_of_le_of_lt (length_plainSpace_le _)
    (Cursor.length_forward_lt (List.length_pos_iff.2 hw) fun h => hw ?_)
  simp [h, plainWord]

/-! ### Tags, anchors and directives -/

/-- The character `c` may stand in a tag. -/
def isTagChar (c : Char) : Bool :=
  c.isAlphanum || "-;/?:@&=+$,_.!~*'()[]%".toList.contains c

/-- The text that a sequence of bytes is in UTF-8. -/
def decodedBytes (bytes : List Nat) : Except Fault (List Char) :=
  match String.fromUTF8? (ByteArray.mk (bytes.map (·.toUInt8)).toArray) with
  | some s => .ok s.toList
  | none => .error .malformed

/-- Bytes written as percent signs and two digits. -/
def percentBytes : List Char → Except Fault (List Nat)
  | '%' :: a :: b :: rest => do
    match Text.hexValue? a, Text.hexValue? b with
    | some high, some low => return (high * 16 + low) :: (← percentBytes rest)
    | _, _ => throw .malformed
  | '%' :: _ => .error .malformed
  | _ => .ok []

/-- The characters of a tag at the front of `cs`, at most `fuel` pieces, and how many characters
they are written with. -/
def tagChars : Nat → List Char → Except Fault (List Char × Nat)
  | 0, _ => .ok ([], 0)
  | _, [] => .ok ([], 0)
  | fuel + 1, c :: rest =>
    if c = '%' then do
      let bytes ← percentBytes (c :: rest)
      let chars ← decodedBytes bytes
      let (more, count) ← tagChars fuel ((c :: rest).drop (3 * bytes.length))
      return (chars ++ more, 3 * bytes.length + count)
    else if isTagChar c then (tagChars fuel rest).map fun r => (c :: r.1, r.2 + 1)
    else .ok ([], 0)

/-- The characters of a tag, at least one, and the position behind them. -/
def tagText (c : Cursor) : Except Fault (String × Cursor) := do
  let (chars, count) ← tagChars (c.rest.takeWhile fun ch => isTagChar ch).length.succ c.rest
  if chars.isEmpty then throw .malformed
  return (String.ofList chars, c.forward count)

/-- The handle of a tag between exclamation marks, and the position behind it. -/
def tagHandle (c : Cursor) : Except Fault (String × Cursor) := do
  match c.rest with
  | '!' :: rest =>
    if rest.head? = some ' ' then return ("!", c.forward 1)
    let name := rest.takeWhile isNameChar
    let behind := c.forward (name.length + 1)
    if behind.rest.head? = some '!' then
      return (String.ofList ('!' :: name ++ ['!']), behind.forward 1)
    else throw .malformed
  | _ => throw .malformed

/-- A tag; the exclamation mark is still to be read. -/
def tag (c : Cursor) : Except Fault (Token × Cursor) := do
  let (token, behind) ← show Except Fault (Token × Cursor) from
    if c.rest[1]? = some '<' then do
      let (text, behind) ← tagText (c.forward 2)
      if behind.rest.head? = some '>' then return (.tag none text, behind.forward 1)
      else throw .malformed
    else if endsWord c.rest[1]? then .ok (.tag none "!", c.forward 1)
    else do
      let word := (c.rest.drop 1).takeWhile fun ch => !(ch == ' ' || isBreak ch)
      let (handle, behind) ← if word.contains '!' then tagHandle c else .ok ("!", c.forward 1)
      let (text, behind) ← tagText behind
      return (.tag (some handle) text, behind)
  if endsPart behind.rest.head? then return (token, behind) else throw .malformed

/-- The name of an anchor behind its mark, and the position behind the name. -/
def anchorName (c : Cursor) : Except Fault (String × Cursor) :=
  let name := (c.rest.drop 1).takeWhile isNameChar
  let behind := c.forward (name.length + 1)
  let ends :=
    endsWord behind.rest.head? || behind.rest.head?.any ("?:,]\x7d%@\x60".toList.contains ·)
  if name.isEmpty || !ends then .error .malformed else .ok (String.ofList name, behind)

/-- A number of the version of the language, and the position behind it. -/
def versionNumber (c : Cursor) : Except Fault (Nat × Cursor) :=
  let digits := c.rest.takeWhile isDigit
  if digits.isEmpty then .error .malformed
  else if digitLimit < digits.length then .error .outOfRange
  else .ok (decimalNatural digits, c.skipWhile isDigit)

/-- What a directive says, and the position behind it. -/
def directiveValue (name : String) (c : Cursor) : Except Fault (Directive × Cursor) := do
  let value := c.skipWhile (· = ' ')
  if name = "YAML" then
    let (major, point) ← versionNumber value
    if point.rest.head? ≠ some '.' then throw .malformed
    let (_, behind) ← versionNumber (point.forward 1)
    if endsPart behind.rest.head? then return (.version major, behind) else throw .malformed
  else if name = "TAG" then
    let (short, space) ← tagHandle value
    if space.rest.head? ≠ some ' ' then throw .malformed
    let (long, behind) ← tagText (space.skipWhile (· = ' '))
    if endsPart behind.rest.head? then return (.handle short long, behind) else throw .malformed
  else return (.other, c.skipWhile (!isBreak ·))

/-- A directive, up to the end of its line; the percent sign is still to be read. -/
def directive (c : Cursor) : Except Fault (Token × Cursor) := do
  let name := (c.rest.drop 1).takeWhile isNameChar
  let behind := c.forward (name.length + 1)
  if name.isEmpty || !endsPart behind.rest.head? then throw .malformed
  let (d, behind) ← directiveValue (String.ofList name) behind
  return (.directive d, ← afterHeader behind)

/-! ### Steps -/

/-- A place where a key may have begun. -/
structure KeyPlace where
  /-- The number of tokens in front of it. -/
  token : Nat
  /-- Nothing but a key can begin there. -/
  required : Bool
  index : Nat
  line : Nat
  column : Nat

/-- The state of the lexer. -/
structure Lexer where
  cursor : Cursor
  /-- The nesting of brackets. -/
  flow : Nat := 0
  /-- The column of the current block. -/
  indent : Int := -1
  /-- The columns of the blocks around it. -/
  outer : List Int := []
  /-- A key may begin here. -/
  keyAllowed : Bool := true
  /-- The places where a key may have begun, for each nesting of brackets. -/
  places : List (Nat × KeyPlace) := []
  tokens : Array Token := #[]
  /-- The places where a key did begin, the last in front, and whether a mapping begins with it. -/
  keys : List (Nat × Bool) := []

namespace Lexer

/-- The widest distance between the beginning of a key and its colon. -/
def keyWidth : Nat := 1024

/-- Adds a token. -/
def push (t : Token) (l : Lexer) : Lexer := { l with tokens := l.tokens.push t }

/-- Moves over a number of characters. -/
def move (n : Nat) (l : Lexer) : Lexer := { l with cursor := l.cursor.forward n }

/-- The text at the current position cannot be behind the key that began at `p`. -/
def isStale (c : Cursor) (p : KeyPlace) : Bool :=
  p.line != c.line || p.index + keyWidth < c.index

/-- Forgets the places that have become too far away; a required key must not be among them. -/
def dropStale (l : Lexer) : Except Fault Lexer :=
  if l.places.any fun p => isStale l.cursor p.2 && p.2.required then .error .malformed
  else .ok { l with places := l.places.filter fun p => !isStale l.cursor p.2 }

/-- Forgets the place of the current nesting; no key may be required there. -/
def forgetPlace (l : Lexer) : Except Fault Lexer :=
  if (l.places.lookup l.flow).any (·.required) then .error .malformed
  else .ok { l with places := l.places.filter (·.1 ≠ l.flow) }

/-- Notes that a key may begin here. -/
def notePlace (l : Lexer) : Except Fault Lexer := do
  if !l.keyAllowed then return l
  let required := l.flow == 0 && l.indent == l.cursor.column
  let l ← l.forgetPlace
  let c := l.cursor
  return { l with places := (l.flow, ⟨l.tokens.size, required, c.index, c.line, c.column⟩) ::
    l.places }

/-- Ends the blocks that stand right of a column. -/
def unwind (column : Int) (l : Lexer) : Lexer :=
  if l.flow ≠ 0 then l
  else
    let ended := (l.indent :: l.outer).takeWhile (column < ·)
    match (l.indent :: l.outer).drop ended.length with
    | [] => l
    | indent :: outer =>
      { l with indent, outer, tokens := l.tokens ++ Array.replicate ended.length .blockEnd }

/-- Begins a block at a column, if it stands right of the current one. -/
def beginBlock (column : Int) (l : Lexer) : Bool × Lexer :=
  if l.indent < column then (true, { l with indent := column, outer := l.indent :: l.outer })
  else (false, l)

/-- Begins a block at the current column and adds a token if that is a new block. -/
def beginBlockHere (t : Token) (l : Lexer) : Lexer :=
  let (new, l) := l.beginBlock l.cursor.column
  if new then l.push t else l

/-- Skips spaces, comments and line breaks; a new line allows a key. -/
def skip (l : Lexer) : Lexer :=
  match _h : l.cursor.skipComment.lineBreak? with
  | some (_, d) => skip { l with cursor := d, keyAllowed := l.keyAllowed || l.flow == 0 }
  | none => { l with cursor := l.cursor.skipComment }
termination_by l.cursor.rest.length
decreasing_by
  exact Nat.lt_of_lt_of_le (Cursor.length_lineBreak?_lt _h) (Cursor.length_skipComment_le _)

/-- Takes a mark that stands for itself. -/
def mark (width : Nat) (t : Token) (keyAllowed : Bool) (l : Lexer) : Lexer :=
  (l.move width).push t |> fun l => { l with keyAllowed }

/-- Takes a word with which a key may begin. -/
def word (l : Lexer) (read : Cursor → Except Fault (Token × Cursor)) : Except Fault Lexer := do
  let l ← l.notePlace
  let (t, cursor) ← read l.cursor
  return { l.push t with cursor, keyAllowed := false }

/-- Takes a plain scalar. -/
def plain (l : Lexer) : Except Fault Lexer := do
  let l ← l.notePlace
  let p := plainScalar (l.flow ≠ 0) (l.indent + 1) [] false l.cursor
  return { l.push (.scalar (String.ofList p.text) true) with
    cursor := p.cursor, keyAllowed := p.broken }

/-- Takes a block scalar. -/
def block (folded : Bool) (l : Lexer) : Except Fault Lexer := do
  let l ← { l with keyAllowed := true }.forgetPlace
  let (text, cursor) ← blockScalar folded l.indent (l.cursor.forward 1)
  return { l.push (.scalar (String.ofList text) false) with cursor }

/-- Takes the mark of a sequence item. -/
def item (l : Lexer) : Except Fault Lexer := do
  if l.flow = 0 ∧ l.keyAllowed = false then throw .malformed
  let l := if l.flow = 0 then l.beginBlockHere .blockSequenceStart else l
  return (← l.forgetPlace).mark 1 .blockEntry true

/-- Takes the mark in front of a key. -/
def key (l : Lexer) : Except Fault Lexer := do
  if l.flow = 0 ∧ l.keyAllowed = false then throw .malformed
  let l := if l.flow = 0 then l.beginBlockHere .blockMappingStart else l
  return (← l.forgetPlace).mark 1 .key (l.flow = 0)

/-- Places in descending order with one more among them. -/
def insertKey (key : Nat × Bool) : List (Nat × Bool) → List (Nat × Bool)
  | [] => [key]
  | other :: rest =>
    if key.1 ≤ other.1 then other :: insertKey key rest else key :: other :: rest

/-- Takes the mark in front of a value, behind a key that began at a noted place or without one. -/
def value (l : Lexer) : Except Fault Lexer := do
  match l.places.lookup l.flow with
  | some p =>
    let l := { l with places := l.places.filter (·.1 ≠ l.flow) }
    let (new, l) := if l.flow = 0 then l.beginBlock p.column else (false, l)
    return { l with keys := insertKey (p.token, new) l.keys }.mark 1 .value false
  | none =>
    if l.flow = 0 ∧ l.keyAllowed = false then throw .malformed
    let l := if l.flow = 0 then l.beginBlockHere .blockMappingStart else l
    return (← l.forgetPlace).mark 1 .value (l.flow = 0)

/-- Takes an opening bracket. -/
def opening (t : Token) (l : Lexer) : Except Fault Lexer := do
  let l ← l.notePlace
  return { l with flow := l.flow + 1 }.mark 1 t true

/-- Takes a closing bracket. -/
def closing (t : Token) (l : Lexer) : Except Fault Lexer := do
  let l ← l.forgetPlace
  if l.flow = 0 then throw .malformed
  return { l with flow := l.flow - 1 }.mark 1 t false

/-- Takes what separates documents. -/
def separator (l : Lexer) (read : Cursor → Except Fault (Token × Cursor)) : Except Fault Lexer := do
  let l ← (l.unwind (-1)).forgetPlace
  let (t, cursor) ← read l.cursor
  return { l.push t with cursor, keyAllowed := false }

/-- A plain scalar can begin with these characters. -/
def startsPlain (inFlow : Bool) : List Char → Bool
  | [] => false
  | c :: rest =>
    !(endsWord (some c) || "-?:,[]\x7b\x7d#&*!|>'\"%@\x60".toList.contains c)
      || (!endsWord rest.head? && (c == '-' || (!inFlow && (c == '?' || c == ':'))))

/-- Takes the next token, which begins with `c`. -/
def take (c : Char) (rest : List Char) (l : Lexer) : Except Fault Lexer :=
  let inFlow := l.flow ≠ 0
  let alone := endsWord rest.head?
  let atMargin := l.cursor.column = 0
  if c = '%' ∧ atMargin then l.separator directive
  else if atMargin ∧ startsWithMarker '-' (c :: rest) then
    l.separator fun place => .ok (.documentStart, place.forward 3)
  else if atMargin ∧ startsWithMarker '.' (c :: rest) then
    l.separator fun place => .ok (.documentEnd, place.forward 3)
  else if c = '[' then l.opening .flowSequenceStart
  else if c = '\x7b' then l.opening .flowMappingStart
  else if c = ']' then l.closing .flowSequenceEnd
  else if c = '\x7d' then l.closing .flowMappingEnd
  else if c = ',' then do
    let l ← { l with keyAllowed := true }.forgetPlace
    return l.mark 1 .flowEntry true
  else if c = '-' ∧ alone then l.item
  else if c = '?' ∧ (inFlow ∨ alone) then l.key
  else if c = ':' ∧ (inFlow ∨ alone) then l.value
  else if c = '*' then l.word fun place => (anchorName place).map fun r => (.reference r.1, r.2)
  else if c = '&' then l.word fun place => (anchorName place).map fun r => (.anchor r.1, r.2)
  else if c = '!' then l.word tag
  else if c = '|' ∧ ¬inFlow then l.block false
  else if c = '>' ∧ ¬inFlow then l.block true
  else if c = '\'' ∨ c = '"' then
    l.word fun place =>
      (quoted c (place.forward 1)).map fun r => (.scalar (String.ofList r.1) false, r.2)
  else if startsPlain inFlow (c :: rest) then l.plain
  else .error .malformed

/-- Tokens with those for keys put in front of the places where keys begin, which are given in
ascending order; `i` tokens precede. -/
def linearise : List (Nat × Bool) → Nat → List Token → List Token
  | _, _, [] => []
  | [], _, ts => ts
  | (place, new) :: keys, i, t :: ts =>
    if place ≠ i then t :: linearise ((place, new) :: keys) (i + 1) ts
    else (if new then [.blockMappingStart, .key, t] else [.key, t]) ++ linearise keys (i + 1) ts

/-- The tokens read so far. -/
def result (l : Lexer) : List Token :=
  linearise l.keys.reverse 0 l.tokens.toList

/-- The tokens in front of a fault.  A place is left only when it is settled whether a key begins
there; so the fault is met at the first place of which that is still open. -/
def failed (fault : Fault) (l : Lexer) : List Token :=
  let unsettled := l.places.filter fun p => !isStale l.cursor p.2
  let count := unsettled.foldl (fun n p => min n p.2.token) l.tokens.size
  ({ l with tokens := l.tokens.take count }.push (.invalid fault)).result

/-- Takes tokens up to the end of the text, at most `fuel` of them. -/
def run : Nat → Lexer → List Token
  | 0, l => (l.push (.invalid .malformed)).result
  | fuel + 1, l =>
    let next := do
      let l ← l.skip.dropStale
      let l := l.unwind l.cursor.column
      match l.cursor.rest with
      | [] =>
        let l ← (l.unwind (-1)).forgetPlace
        return (true, l.push .streamEnd)
      | c :: rest => return (false, ← l.take c rest)
    match next with
    | .ok (true, l) => l.result
    | .ok (false, l) => run fuel l
    | .error fault => l.failed fault

end Lexer

/-- The tokens of a text. -/
def lex (text : String) : List Token :=
  let cs := text.toList
  if cs.all isAllowed then
    let start : Cursor := { rest := cs }
    let start := if cs.head? = some '\uFEFF' then start.next else start
    Lexer.run (cs.length + 2) { cursor := start }
  else [.invalid .malformed]

end SchemaLoom.Yaml
