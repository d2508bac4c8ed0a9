/-
Scalars of YAML.

A scalar without quotation marks and without a tag gets its tag from its form: `resolve` says
which words are truth values, numbers, times or nothing at all.  `read` makes a value of a
scalar whose tag is known.  What `read` accepts under an explicit tag is wider than what
`resolve` recognises.
-/
import SchemaLoom.Text.CharClass
import SchemaLoom.Text.Layout
import SchemaLoom.Tree.Scalar
import SchemaLoom.Yaml.Token

namespace SchemaLoom.Yaml

/-- The tag of a kind of value that every reader knows. -/
def coreTag (kind : String) : String := "tag:yaml.org,2002:" ++ kind

/-! ### Forms -/

/-- The sequence `cs` is not empty and has characters with `p` only. -/
def isRun (p : Char → Bool) (cs : List Char) : Bool := !cs.isEmpty && cs.all p

/-- The character `c` is a digit or an underscore. -/
def isSpacedDigit (c : Char) : Bool := isDigit c || c == '_'

/-- The sequence is a digit, not one of those in `never`, and then digits and underscores. -/
def isSpacedNumber (never : List Char) : List Char → Bool
  | c :: cs => isDigit c && !never.contains c && cs.all isSpacedDigit
  | [] => false

/-- The sequence is a number below sixty. -/
def isSixtieth : List Char → Bool
  | [c] => isDigit c
  | [c, d] => '0' ≤ c && c ≤ '5' && isDigit d
  | _ => false

/-- The sequence `cs` is a number followed by at least one number below sixty, colons between. -/
def isSexagesimal (never : List Char) (cs : List Char) : Bool :=
  match Text.splitChars ':' cs with
  | first :: second :: rest =>
    isSpacedNumber never first && (second :: rest).all isSixtieth
  | _ => false

/-- The character `c` is a hexadecimal digit. -/
def isHexDigit (c : Char) : Bool := isDigit c || ('a' ≤ c && c ≤ 'f') || ('A' ≤ c && c ≤ 'F')

/-- The word is an integer. -/
def isInt (cs : List Char) : Bool :=
  match (splitSign cs).2 with
  | ['0'] => true
  | '0' :: 'b' :: rest => isRun (fun c => c == '0' || c == '1' || c == '_') rest
  | '0' :: 'x' :: rest => isRun (fun c => isHexDigit c || c == '_') rest
  | '0' :: rest => isRun (fun c => ('0' ≤ c && c ≤ '7') || c == '_') rest
  | cs => isSpacedNumber ['0'] cs || isSexagesimal ['0'] cs

/-- The sequence is nothing or an exponent with a sign. -/
def isExponent : List Char → Bool
  | [] => true
  | e :: sign :: digits =>
    (e == 'e' || e == 'E') && (sign == '-' || sign == '+') && isRun isDigit digits
  | _ => false

/-- The word is a fraction. -/
def isFloat (cs : List Char) : Bool :=
  let unsigned := (splitSign cs).2
  let whole := unsigned.takeWhile fun c => isSpacedDigit c || c == ':'
  let decimal :=
    match unsigned.dropWhile fun c => isSpacedDigit c || c == ':' with
    | '.' :: rest =>
      let tail := rest.dropWhile isSpacedDigit
      (isSpacedNumber [] whole && isExponent tail) || (isSexagesimal [] whole && tail.isEmpty)
    | _ => false
  let leadingPoint :=
    match cs with
    | '.' :: d :: rest => isDigit d && isExponent (rest.dropWhile isSpacedDigit)
    | _ => false
  decimal || leadingPoint
    || [".inf", ".Inf", ".INF"].contains (String.ofList unsigned)
    || [".nan", ".NaN", ".NAN"].contains (String.ofList cs)

/-- The words for truth and falsity. -/
def truthWords : List (String × Bool) :=
  [("yes", true), ("no", false), ("true", true), ("false", false), ("on", true), ("off", false)]

/-- The word is a truth value: small, capitalised or in capitals. -/
def isTruth (cs : List Char) : Bool :=
  truthWords.any fun w =>
    let small := w.1.toList
    cs == small || cs == small.map Char.toUpper
      || cs == (small.take 1).map Char.toUpper ++ small.drop 1

/-! ### Times -/

/-- The time of a day as it is written. -/
structure ClockText where
  hour : Nat
  minute : Nat
  second : Nat
  fraction : List Char
  /-- The distance from universal time: a sign, hours and minutes. -/
  zone : Option (Bool × Nat × Nat)

/-- A day and perhaps a time as they are written. -/
structure TimeText where
  year : Nat
  month : Nat
  day : Nat
  clock : Option ClockText

/-- Between `least` and `most` digits at the front, and the rest. -/
def digits? (least most : Nat) (cs : List Char) : Option (Nat × List Char) :=
  let run := (cs.take most).takeWhile isDigit
  if run.length < least then none else some (decimalNatural run, cs.drop run.length)

/-- A character at the front taken off. -/
def after? (c : Char) : List Char → Option (List Char)
  | d :: rest => if d = c then some rest else none
  | [] => none

/-- The distance from universal time that a sequence consists of; `none` inside for no distance. -/
def zone? : List Char → Option (Option (Bool × Nat × Nat))
  | [] => some none
  | cs =>
    match cs.dropWhile isBlank with
    | ['Z'] => some (some (false, 0, 0))
    | sign :: rest =>
      if sign = '-' ∨ sign = '+' then do
        let (hours, rest) ← digits? 1 2 rest
        if rest.isEmpty then return some (sign == '-', hours, 0)
        let (minutes, rest) ← digits? 2 2 (← after? ':' rest)
        if rest.isEmpty then return some (sign == '-', hours, minutes) else none
      else none
    | [] => none

/-- The time that a sequence consists of. -/
def clock? (cs : List Char) : Option ClockText := do
  let (hour, rest) ← digits? 1 2 cs
  let (minute, rest) ← digits? 2 2 (← after? ':' rest)
  let (second, rest) ← digits? 2 2 (← after? ':' rest)
  let (fraction, rest) :=
    match rest with
    | '.' :: rest => (rest.takeWhile isDigit, rest.dropWhile isDigit)
    | rest => ([], rest)
  return { hour, minute, second, fraction, zone := ← zone? rest }

/-- The day, and perhaps the time, that a sequence consists of. -/
def time? (cs : List Char) : Option TimeText := do
  let (year, rest) ← digits? 4 4 cs
  let (month, rest) ← digits? 1 2 (← after? '-' rest)
  let (day, rest) ← digits? 1 2 (← after? '-' rest)
  match rest with
  | [] => return { year, month, day, clock := none }
  | c :: more =>
    if c = 'T' ∨ c = 't' then return { year, month, day, clock := some (← clock? more) }
    else if isBlank c then
      return { year, month, day, clock := some (← clock? (rest.dropWhile isBlank)) }
    else none

/-- The word is a day with all its digits, or a day and a time. -/
def isTime (cs : List Char) : Bool :=
  (time? cs).any fun t => t.clock.isSome || cs.length == 10

/-! ### Resolution -/

/-- A word without one line break at its end; the break does not count for its form. -/
def withoutBreak (cs : List Char) : List Char :=
  if 1 < cs.length ∧ cs.getLast? = some '\n' then cs.dropLast else cs

/-- The tag of a word by its form. -/
def resolve (text : String) : String :=
  let cs := withoutBreak text.toList
  let word := String.ofList cs
  coreTag <|
    if isTruth cs then "bool"
    else if isFloat cs then "float"
    else if isInt cs then "int"
    else if word = "<<" then "merge"
    else if ["", "~", "null", "Null", "NULL"].contains word then "null"
    else if isTime cs then "timestamp"
    else if word = "=" then "value"
    else if ["!", "&", "*"].contains word then "yaml"
    else "str"

/-! ### Values -/

/-- A character as it counts in a number: digits of all scripts are digits, and white space beyond
ASCII is a space. -/
def numeral (c : Char) : Char :=
  if c.toNat < 128 then c
  else if Text.isBlankChar c then ' '
  else (Text.decimalDigit? c).elim c fun d => Char.ofNat (48 + d)

/-- The character `c` may stand around a number. -/
def isPadding (c : Char) : Bool := c == ' ' || ('\t' ≤ c && c ≤ '\r')

/-- The characters of a number, without white space at both ends. -/
def numerals (cs : List Char) : List Char :=
  (((cs.map numeral).dropWhile isPadding).reverse.dropWhile isPadding).reverse

/-- The letter that may follow a zero in front of the digits of a base. -/
def baseLetter? : Nat → Option Char
  | 2 => some 'b'
  | 8 => some 'o'
  | 16 => some 'x'
  | _ => none

/-- The value of a digit in a base. -/
def digitIn? (base : Nat) (c : Char) : Option Nat := (Text.hexValue? c).filter (· < base)

/-- The integer that a sequence denotes in a base: white space around it, a sign and the usual mark
of the base are allowed. -/
def integer (base : Nat) (cs : List Char) : Except Fault Int :=
  let (negative, rest) := splitSign (numerals cs)
  let digits :=
    match rest with
    | '0' :: c :: more => if (baseLetter? base).any (· == c.toLower) then more else rest
    | _ => rest
  if digits.isEmpty || !digits.all fun c => (digitIn? base c).isSome then .error .outOfRange
  else if base = 10 ∧ digitLimit < digits.length then .error .outOfRange
  else .ok (Binary64.signed negative (naturalOf base (fun c => (digitIn? base c).getD 0) digits))

/-- The number that digits in base sixty denote, the last one first. -/
def sixtieths {α : Type} (add : α → α → α) (scale : α → Int → α) (zero : α) (base : Int) :
    List α → α
  | [] => zero
  | d :: ds => sixtieths add scale (add zero (scale d base)) (base * 60) ds

/-- Splits the sign off a number, which must not be empty. -/
def signedText (cs : List Char) : Except Fault (Bool × List Char) :=
  if cs.isEmpty then .error .emptyNumber else .ok (splitSign cs)

/-- The integer that a scalar denotes. -/
def readInt (text : String) : Except Fault Int := do
  let (negative, cs) ← signedText (text.toList.filter (· ≠ '_'))
  let magnitude ← show Except Fault Int from
    match cs with
    | [] => .error .emptyNumber
    | ['0'] => .ok 0
    | '0' :: 'b' :: rest => integer 2 rest
    | '0' :: 'x' :: rest => integer 16 rest
    | '0' :: rest => integer 8 ('0' :: rest)
    | cs =>
      if cs.contains ':' then do
        let parts ← (Text.splitChars ':' cs).mapM (integer 10)
        return sixtieths (· + ·) (· * ·) 0 1 parts.reverse
      else integer 10 cs
  return if negative then -magnitude else magnitude

/-- The fraction that a sequence denotes, with white space around it allowed. -/
def fraction (cs : List Char) : Except Fault Binary64 :=
  let (negative, rest) := splitSign (numerals cs)
  let word := String.ofList (rest.map Char.toLower)
  if word = "inf" ∨ word = "infinity" then .ok (.infinite negative)
  else if word = "nan" then .ok .nan
  else
    match readUnsigned? negative rest with
    | some x => .ok x
    | none => .error .outOfRange

/-- The number of places of a fraction in base sixty whose weights are below `2 ^ 1024`. -/
def sixtiethPlaces : Nat := 174

/-- The text of the quantity that is not a number, in small letters. -/
def sharedNaN : List Char := ".nan".toList

/-- The fraction that a scalar denotes. -/
def readFloat (text : String) : Except Fault Binary64 := do
  let (negative, cs) ← signedText ((text.toList.filter (· ≠ '_')).map Char.toLower)
  let magnitude ← show Except Fault Binary64 from
    if cs = ".inf".toList then .ok (.infinite false)
    else if cs = sharedNaN then .ok .nan
    else if cs.contains ':' then do
      let parts ← (Text.splitChars ':' cs).mapM fraction
      if sixtiethPlaces < parts.length then throw .beyondMachine
      return sixtieths Binary64.add (fun d base => d.mul (.ofInt base))
        (.zero false) 1 parts.reverse
    else fraction cs
  return if negative then magnitude.neg else magnitude

/-- The truth value that a scalar denotes. -/
def readTruth (text : String) : Except Fault Bool :=
  match truthWords.lookup (String.ofList (text.toList.map Char.toLower)) with
  | some truth => .ok truth
  | none => .error .unknownTruth

/-- The quantity that a scalar denotes; `origin` is the place of the scalar. -/
def readQuantity (origin : Nat) (text : String) : Except Fault Scalar := do
  let x ← readFloat text
  let letters := (text.toList.filter (· ≠ '_')).map Char.toLower
  return if x = .nan ∧ (splitSign letters).2 ≠ sharedNaN then .notANumber origin else .float x

/-- A time that is written, if it exists. -/
def ClockText.check (t : ClockText) (date : Date) (origin : Nat) : Except Fault Scalar :=
  let microsecond := decimalNatural ((t.fraction ++ List.replicate 6 '0').take 6)
  let offset := t.zone.map fun z => Binary64.signed z.1 (z.2.1 * 60 + z.2.2)
  if t.hour < 24 ∧ t.minute < 60 ∧ t.second < 60 ∧ (offset.getD 0).natAbs < 24 * 60 then
    .ok (.timestamp ⟨date, t.hour, t.minute, t.second, microsecond, offset⟩ origin)
  else .error .outOfRange

/-- The day or time that a scalar denotes; `origin` is the place of the scalar. -/
def readTime (origin : Nat) (text : String) : Except Fault Scalar :=
  match time? (withoutBreak text.toList) with
  | none => .error .unknownTime
  | some t =>
    let date : Date := ⟨t.year, t.month, t.day⟩
    if date.isValid then t.clock.elim (.ok (.date date origin)) (·.check date origin)
    else .error .outOfRange

/-- The value of a digit of the encoding of bytes. -/
def sextet? (c : Char) : Option Nat :=
  if 'A' ≤ c ∧ c ≤ 'Z' then some (c.toNat - 65)
  else if 'a' ≤ c ∧ c ≤ 'z' then some (c.toNat - 71)
  else if isDigit c then some (c.toNat + 4)
  else if c = '+' then some 62
  else if c = '/' then some 63
  else none

/-- The bytes that encoded characters stand for.  `count` digits of the current group of four were
read and `left` holds the bits of the last that belong to the next byte; `pads` equals signs
followed.  Other characters do not count. -/
def bytesFrom (count left pads : Nat) : List Char → Except Fault (List UInt8)
  | [] => if count = 0 then .ok [] else .error .malformed
  | c :: cs =>
    if c = '=' then
      if 2 ≤ count then
        if 4 ≤ count + pads + 1 then .ok [] else bytesFrom count left (pads + 1) cs
      else bytesFrom count left pads cs
    else
      match sextet? c with
      | none => bytesFrom count left pads cs
      | some d =>
        match count with
        | 0 => bytesFrom 1 d 0 cs
        | 1 => (bytesFrom 2 (d % 16) 0 cs).map ((left * 4 + d / 16).toUInt8 :: ·)
        | 2 => (bytesFrom 3 (d % 4) 0 cs).map ((left * 16 + d / 4).toUInt8 :: ·)
        | _ => (bytesFrom 0 0 0 cs).map ((left * 64 + d).toUInt8 :: ·)

/-- The bytes that a scalar denotes. -/
def readBytes (text : String) : Except Fault (List UInt8) :=
  if text.toList.all (·.toNat < 128) then bytesFrom 0 0 0 text.toList else .error .malformed

/-- The value of a scalar with a tag; `origin` is the place of the scalar.  No spelled code point
occurs in anything but a text. -/
def readScalar (origin : Nat) (tag text : String) : Except Fault Scalar :=
  if tag = coreTag "str" then .ok (.ofCodes (spelledCodes text.toList))
  else if tag = coreTag "null" then .ok .null
  else if tag = coreTag "bool" then .bool <$> readTruth text
  else if tag = coreTag "int" then .int <$> readInt text
  else if tag = coreTag "float" then readQuantity origin text
  else if tag = coreTag "timestamp" then readTime origin text
  else if tag = coreTag "binary" then .bytes <$> readBytes text
  else .error .malformed

end SchemaLoom.Yaml
