/-
Printing YAML text.

Collections are written as blocks, empty ones in brackets.  The items of a sequence in a
mapping stand in the column of its key.  A key that is empty, long or spans lines is
introduced by a question mark.

A shared part of a forest is written where it is met first, behind an anchor if it is met
again; the other places refer to the anchor.  So it is with days and timestamps, also as keys.
Anchors are numbered in the order of the first references to them.
-/
import SchemaLoom.Tree
import SchemaLoom.Yaml.Writer

namespace SchemaLoom.Yaml

/-- What may be met several times. -/
inductive Subject where
  /-- A shared part. -/
  | part (index : Nat)
  /-- A scalar that was read from a place. -/
  | scalar (origin : Nat)
  deriving DecidableEq, Repr

/-- A tree as it is going to be written. -/
inductive Sketch where
  | scalar (tag text : String) (block : Bool)
  /-- A text given by its code points, some of which are no characters. -/
  | codes (value : List Nat)
  | sequence (items : List Sketch)
  | mapping (isSet : Bool) (entries : List (Sketch × Sketch))
  /-- A subject where it is met first. -/
  | anchored (subject : Subject) (part : Sketch)
  /-- A subject where it is met again. -/
  | reference (subject : Subject)
  deriving Inhabited

/-- Why a tree cannot be written. -/
inductive Obstacle where
  /-- An integer has more digits than are written. -/
  | longNumber
  /-- More collections stand inside each other than are written. -/
  | deepNesting
  deriving DecidableEq, Repr

/-- What is known of a tree while it is sketched. -/
structure Survey where
  /-- The subjects met so far. -/
  met : List Subject := []
  /-- What was met first that cannot be written. -/
  obstacle : Option Obstacle := none

/-- Notes an obstacle unless one was met before. -/
def Survey.refuse (o : Obstacle) (s : Survey) : Survey :=
  { s with obstacle := s.obstacle <|> some o }

/-- The greatest number of collections around anything that is written. -/
def writingDepth : Nat := 328

/-- Notes that something is met inside `level` collections. -/
def Survey.reach (level : Nat) (s : Survey) : Survey :=
  if writingDepth < level then s.refuse .deepNesting else s

/-! ### Scalars -/

/-- Numbers: positional below `10 ^ 16` and down to `10 ^ -4`, with a fraction before an
exponent. -/
def floatStyle : FloatStyle where
  positionalBelow := 16
  positionalFrom := -4
  fractionBeforeExponent := true
  infinity := ".inf"
  nan := ".nan"

/-- The digits of the encoding of bytes. -/
def sextetChar (d : Nat) : Char :=
  if d < 26 then Char.ofNat (65 + d)
  else if d < 52 then Char.ofNat (71 + d)
  else if d < 62 then Char.ofNat (d - 4)
  else if d = 62 then '+' else '/'

/-- Bytes encoded three at a time in four characters. -/
def encodedBytes : List UInt8 → List Char
  | [] => []
  | [a] => [sextetChar (a.toNat / 4), sextetChar (a.toNat % 4 * 16), '=', '=']
  | [a, b] =>
    [sextetChar (a.toNat / 4), sextetChar (a.toNat % 4 * 16 + b.toNat / 16),
      sextetChar (b.toNat % 16 * 4), '=']
  | a :: b :: c :: rest =>
    [sextetChar (a.toNat / 4), sextetChar (a.toNat % 4 * 16 + b.toNat / 16),
      sextetChar (b.toNat % 16 * 4 + c.toNat / 64), sextetChar (c.toNat % 64)] ++ encodedBytes rest

/-- Characters in lines of 76, each ended by a line break; at most `fuel` lines. -/
def lines76 : Nat → List Char → List Char
  | 0, _ => []
  | fuel + 1, cs => if cs.isEmpty then [] else cs.take 76 ++ '\n' :: lines76 fuel (cs.drop 76)

/-- The encoding of bytes in lines. -/
def bytesText (bs : List UInt8) : String :=
  let cs := encodedBytes bs
  String.ofList (lines76 cs.length cs)

/-- A scalar as it is going to be written. -/
def sketchScalar : Scalar → Sketch
  | .null => .scalar (coreTag "null") "null" false
  | .bool truth => .scalar (coreTag "bool") (if truth then "true" else "false") false
  | .int value => .scalar (coreTag "int") (toString value) false
  | .float value => .scalar (coreTag "float") (floatStyle.render value) false
  | .text value => .scalar (coreTag "str") value false
  | .codes value => .codes value
  | .bytes value => .scalar (coreTag "binary") (bytesText value) true
  | .date value _ => .scalar (coreTag "timestamp") (Scalar.dateText value) false
  | .timestamp value _ => .scalar (coreTag "timestamp") (Scalar.timestampText value) false
  | .notANumber _ => .scalar (coreTag "float") floatStyle.nan false

/-- The place that a scalar was read from, if it matters where the scalar stands again. -/
def origin? : Scalar → Option Nat
  | .date _ origin | .timestamp _ origin => some origin
  | _ => none

/-- A scalar inside `level` collections as it is going to be written where it stands. -/
def sketchLeaf (level : Nat) (survey : Survey) (s : Scalar) : Sketch × Survey :=
  let survey := survey.reach level
  let survey := if s.isWritable then survey else survey.refuse .longNumber
  match (origin? s).map Subject.scalar with
  | none => (sketchScalar s, survey)
  | some subject =>
    if survey.met.contains subject then (.reference subject, survey)
    else (.anchored subject (sketchScalar s), { survey with met := subject :: survey.met })

/-- The members of a set as they are going to be written. -/
def sketchMembers (level : Nat) (survey : Survey) :
    List Scalar → List (Sketch × Sketch) × Survey
  | [] => ([], survey)
  | m :: ms =>
    let (first, survey) := sketchLeaf level survey m
    let (rest, survey) := sketchMembers level survey ms
    ((first, sketchScalar .null) :: rest, survey)

/-! ### Trees -/

mutual

/-- A tree inside `level` collections as it is going to be written, given how its shared parts
are. -/
def sketch (shared : Nat → Survey → Nat → Sketch × Survey) (level : Nat) (survey : Survey) :
    Tree → Sketch × Survey
  | .leaf s => sketchLeaf level survey s
  | .list ts =>
    let (items, survey) := sketchItems shared (level + 1) (survey.reach level) ts
    (.sequence items, survey)
  | .map es =>
    let (entries, survey) := sketchEntries shared (level + 1) (survey.reach level) es
    (.mapping false entries, survey)
  | .set members =>
    let (entries, survey) := sketchMembers (level + 1) (survey.reach level) members
    (.mapping true entries, survey)
  | .shared index => shared level survey index

/-- The items of a list as they are going to be written. -/
def sketchItems (shared : Nat → Survey → Nat → Sketch × Survey) (level : Nat) (survey : Survey) :
    List Tree → List Sketch × Survey
  | [] => ([], survey)
  | t :: ts =>
    let (first, survey) := sketch shared level survey t
    let (rest, survey) := sketchItems shared level survey ts
    (first :: rest, survey)

/-- The entries of a mapping as they are going to be written. -/
def sketchEntries (shared : Nat → Survey → Nat → Sketch × Survey) (level : Nat) (survey : Survey) :
    List (Scalar × Tree) → List (Sketch × Sketch) × Survey
  | [] => ([], survey)
  | (k, v) :: es =>
    let (key, survey) := sketchLeaf level survey k
    let (value, survey) := sketch shared level survey v
    let (rest, survey) := sketchEntries shared level survey es
    ((key, value) :: rest, survey)

end

/-- A shared part inside `level` collections as it is going to be written; shared parts are nested
at most `fuel` times. -/
def sketchShared (parts : List Tree) (fuel level : Nat) (survey : Survey) (index : Nat) :
    Sketch × Survey :=
  let subject := Subject.part index
  if survey.met.contains subject then (.reference subject, survey)
  else
    match fuel with
    | 0 => (sketchScalar .null, survey)
    | fuel + 1 =>
      let survey := { survey with met := subject :: survey.met }
      let (part, survey) := sketch (sketchShared parts fuel) level survey (parts.getD index .null)
      (.anchored subject part, survey)

mutual

/-- The references of a sketch in order. -/
def Sketch.references : Sketch → List Subject
  | .scalar _ _ _ | .codes _ => []
  | .sequence items => referencesOfItems items
  | .mapping _ entries => referencesOfEntries entries
  | .anchored _ part => part.references
  | .reference subject => [subject]

/-- The references of the items of a sequence. -/
def referencesOfItems : List Sketch → List Subject
  | [] => []
  | s :: ss => s.references ++ referencesOfItems ss

/-- The references of the entries of a mapping. -/
def referencesOfEntries : List (Sketch × Sketch) → List Subject
  | [] => []
  | (k, v) :: rest => k.references ++ v.references ++ referencesOfEntries rest

end

/-! ### Blocks -/

/-- Where a part of a tree stands. -/
inductive Position where
  | root | item | shortKey | entry
  deriving DecidableEq

/-- What a printer knows throughout. -/
structure Page where
  width : Nat
  /-- The subjects that have anchors, in the order of their numbers. -/
  anchors : List Subject

/-- The name of an anchor, with a number of at least three digits. -/
def Page.anchorName? (p : Page) (subject : Subject) : Option String :=
  (p.anchors.idxOf? subject).map fun n => "id" ++ Scalar.padded 3 (n + 1)

/-- A tag in its short form. -/
def shortTag (tag : String) : String :=
  "!!" ++ String.ofList (tag.toList.drop (coreTag "").length)

/-- The column of a block inside another one. -/
def deeper : Option Nat → Nat
  | none => 0
  | some indent => indent + 2

/-- Writes a scalar. -/
def writeScalar (page : Page) (position : Position) (indent : Option Nat) (tag text : String)
    (block : Bool) (w : Writer) : Writer :=
  let cs := text.toList
  let m : Margins := ⟨page.width, (indent.getD 0) + 2, position ≠ .shortKey⟩
  let isKey := position = .shortKey
  let quotedTag := if tag = coreTag "str" then w else w.mark (shortTag tag) true
  if block = false ∧ resolve text = tag ∧ !(isKey && (cs.isEmpty || spansLines cs)) ∧
    fitsPlain cs then
    writePlain m (position = .root) cs w
  else if block ∧ !isKey ∧ fitsBlock cs then writeBlock m cs quotedTag
  else if block = false ∧ fitsSingle cs ∧ !(isKey && spansLines cs) then writeSingle m cs quotedTag
  else writeDouble m (cs.map Char.toNat) quotedTag

/-- Writes a text given by its code points. -/
def writeCodes (page : Page) (position : Position) (indent : Option Nat) (codes : List Nat)
    (w : Writer) : Writer :=
  writeDouble ⟨page.width, (indent.getD 0) + 2, position ≠ .shortKey⟩ codes w

/-- The longest key, counted with its tag, that needs no question mark. -/
def longestKey : Nat := 127

/-- The key needs no question mark. -/
def Sketch.isShortKey : Sketch → Bool
  | .scalar tag text _ =>
    (shortTag tag).length + text.length ≤ longestKey && text ≠ "" && !spansLines text.toList
  | .codes value =>
    (shortTag (coreTag "str")).length + value.length ≤ longestKey
      && !spansLines (value.map Char.ofNat)
  | .anchored _ part => part.isShortKey
  | .reference _ => true
  | _ => false

mutual

/-- Writes a part of a tree into a block whose column is `indent`. -/
def Sketch.write (page : Page) (position : Position) (indent : Option Nat) (s : Sketch)
    (w : Writer) : Writer :=
  match s with
  | .scalar tag text block => writeScalar page position indent tag text block w
  | .codes value => writeCodes page position indent value w
  | .sequence [] => (w.mark "[" true true).mark "]" false
  | .sequence items =>
    let bare := position = .entry ∧ w.indenting = false
    writeItems page (if bare then indent.getD 0 else deeper indent) items w
  | .mapping isSet entries =>
    let w := if isSet then w.mark "!!set" true else w
    match entries with
    | [] => (w.mark "\x7b" true true).mark "\x7d" false
    | entries => writeEntries page (deeper indent) entries w
  | .anchored subject part =>
    let w :=
      match page.anchorName? subject with | some name => w.mark ("&" ++ name) true | none => w
    part.write page position indent w
  | .reference subject => w.mark ("*" ++ (page.anchorName? subject).getD "") true

/-- Writes the items of a sequence. -/
def writeItems (page : Page) (indent : Nat) (items : List Sketch) (w : Writer) : Writer :=
  match items with
  | [] => w
  | s :: ss =>
    let w := (w.indentTo indent).mark "-" true false true
    writeItems page indent ss (s.write page .item (some indent) w)

/-- Writes the entries of a mapping. -/
def writeEntries (page : Page) (indent : Nat) (entries : List (Sketch × Sketch)) (w : Writer) :
    Writer :=
  match entries with
  | [] => w
  | (k, v) :: rest =>
    let w := w.indentTo indent
    let w :=
      if k.isShortKey then (k.write page .shortKey (some indent) w).mark ":" false
      else
        let w := k.write page .entry (some indent) (w.mark "?" true false true)
        (w.indentTo indent).mark ":" true false true
    writeEntries page indent rest (v.write page .entry (some indent) w)

end

/-- A forest as it is going to be written. -/
def sketchForest (f : Forest) : Sketch × Survey :=
  sketch (sketchShared f.parts (f.parts.length + 1)) 0 {} f.root

/-- Why a forest cannot be written, if it cannot: of several obstacles the one that is met first. -/
def obstacle? (f : Forest) : Option Obstacle := (sketchForest f).2.obstacle

/-- The text of a forest, folded at a width. -/
def print (width : Nat) (f : Forest) : String :=
  let (s, _) := sketchForest f
  let page : Page := ⟨width, Text.distinct s.references⟩
  let w := (s.write page .root none {}).indentTo 0
  (if w.openEnded then (w.mark "..." true).indentTo 0 else w).text

end SchemaLoom.Yaml
