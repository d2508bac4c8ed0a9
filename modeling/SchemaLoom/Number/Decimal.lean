/-
Decimal text of double-precision numbers.

`shortest` selects the fewest decimal digits that identify a number; `FloatStyle` says how
digits become text.  Reading goes the other way: `readDecimal?` takes digits, an optional
fraction and an optional exponent, and rounds once.

### Selecting digits

The reals that round to `m * 2 ^ q` form an interval whose ends lie half way to the
neighbouring numbers; the ends belong to it exactly when `m` is even.  On the grid of
multiples of `10 ^ j` the only candidates are the two neighbours of the value.  Going from
coarse grids to fine ones, the first grid with a candidate inside the interval gives the
digits; of two candidates the nearer one, of two equally near ones the even one.
-/
import SchemaLoom.Number.Binary64

namespace SchemaLoom

/-- Digits and the power of ten of the last one. -/
structure Decimal where
  digits : Nat
  exponent : Int
  deriving DecidableEq, Repr

namespace Decimal

/-- The interval of reals that round to a number, in units of `2 ^ (q - 2)`. -/
structure Interval where
  low : Nat
  value : Nat
  high : Nat
  /-- The ends belong to the interval. -/
  closed : Bool

/-- The rounding interval of `m * 2 ^ q`. -/
def interval (m : Nat) (q : Int) : Interval where
  low := if 2 * m = Binary64.significandLimit ∧ -1074 < q then 4 * m - 1 else 4 * m - 2
  value := 4 * m
  high := 4 * m + 2
  closed := m % 2 == 0

/-- The candidate of the grid `10 ^ j` that identifies `m * 2 ^ q`, if there is one. -/
def onGrid? (m : Nat) (q : Int) (j : Int) : Option Decimal :=
  let i := interval m q
  let unit := Binary64.powerOfTwo (q - 2)
  let grid := Binary64.powerOfTen j
  let point (k : Nat) := k * grid.1 * unit.2
  let scaled (x : Nat) := x * unit.1 * grid.2
  let inside (k : Nat) : Bool :=
    if i.closed then scaled i.low ≤ point k && point k ≤ scaled i.high
    else scaled i.low < point k && point k < scaled i.high
  let below := scaled i.value / (grid.1 * unit.2)
  match inside below, inside (below + 1) with
  | true, false => some ⟨below, j⟩
  | false, true => some ⟨below + 1, j⟩
  | false, false => none
  | true, true =>
    let twice := 2 * scaled i.value
    let sum := point below + point (below + 1)
    if twice < sum then some ⟨below, j⟩
    else if sum < twice then some ⟨below + 1, j⟩
    else if below % 2 = 0 then some ⟨below, j⟩ else some ⟨below + 1, j⟩

/-- The number `m * 2 ^ q` lies below `10 ^ k`. -/
def belowPower (m : Nat) (q : Int) (k : Int) : Bool :=
  let unit := Binary64.powerOfTwo q
  let ten := Binary64.powerOfTen k
  m * unit.1 * ten.2 < ten.1 * unit.2

/-- The least power of ten above `m * 2 ^ q`: the estimate from the binary logarithm, corrected. -/
def scaleOf (m : Nat) (q : Int) : Int :=
  let guess := ((m.log2 : Int) + q) * 30103 / 100000 - 1
  match [guess, guess + 1, guess + 2, guess + 3].find? (belowPower m q) with
  | some k => k
  | none => guess + 4

/-- Moves trailing zeros of the digits into the exponent; at most `fuel` of them. -/
def stripZeros : Nat → Decimal → Decimal
  | 0, d => d
  | fuel + 1, d =>
    if d.digits % 10 = 0 ∧ d.digits ≠ 0 then stripZeros fuel ⟨d.digits / 10, d.exponent + 1⟩ else d

/-- The exact decimal value of `m * 2 ^ q`. -/
def exact (m : Nat) (q : Int) : Decimal :=
  if 0 ≤ q then ⟨m * Nat.pow 2 q.toNat, 0⟩ else ⟨m * Nat.pow 5 (-q).toNat, q⟩

/-- The fewest digits that identify the number `m * 2 ^ q`. -/
def shortest (m : Nat) (q : Int) : Decimal :=
  let scale := scaleOf m q
  match (List.range 17).findSome? fun (n : Nat) => onGrid? m q (scale - 1 - n) with
  | some d => stripZeros 20 d
  | none => exact m q

end Decimal

/-- How a number becomes text. -/
structure FloatStyle where
  /-- Numbers of this power of ten and above are written with an exponent. -/
  positionalBelow : Int
  /-- Numbers under this power of ten are written with an exponent. -/
  positionalFrom : Int
  /-- A significand of one digit keeps a fraction in front of an exponent. -/
  fractionBeforeExponent : Bool
  infinity : String
  nan : String

namespace FloatStyle

/-- The digits of a natural in base ten. -/
def digitsOf (n : Nat) : String := String.ofList (Nat.toDigits 10 n)

/-- A text of zeros. -/
def zeros (n : Nat) : String := String.ofList (List.replicate n '0')

/-- Digits with a point after the first `point` of them. -/
def positional (digits : String) (point : Int) : String :=
  if point ≤ 0 then "0." ++ zeros (-point).toNat ++ digits
  else if digits.length ≤ point.toNat then digits ++ zeros (point.toNat - digits.length) ++ ".0"
  else
    String.ofList (digits.toList.take point.toNat) ++ "."
      ++ String.ofList (digits.toList.drop point.toNat)

/-- An exponent with its sign and at least two digits. -/
def exponentText (e : Int) : String :=
  let digits := digitsOf e.natAbs
  (if e < 0 then "e-" else "e+") ++ (if digits.length < 2 then "0" ++ digits else digits)

/-- Digits with a point after the first of them, and an exponent. -/
def scientific (style : FloatStyle) (digits : String) (point : Int) : String :=
  let rest := digits.toList.drop 1
  let fraction :=
    if rest.isEmpty then (if style.fractionBeforeExponent then ".0" else "")
    else "." ++ String.ofList rest
  String.ofList (digits.toList.take 1) ++ fraction ++ exponentText (point - 1)

/-- The text of a number. -/
def render (style : FloatStyle) : Binary64 → String
  | .nan => style.nan
  | .infinite negative => (if negative then "-" else "") ++ style.infinity
  | .finite negative m q =>
    let sign := if negative then "-" else ""
    if m = 0 then sign ++ "0.0"
    else
      let decimal := Decimal.shortest m q
      let digits := digitsOf decimal.digits
      let point := decimal.exponent + digits.length
      if style.positionalFrom < point ∧ point ≤ style.positionalBelow then
        sign ++ positional digits point
      else sign ++ scientific style digits point

end FloatStyle

/-! ### Reading -/

/-- The greatest number of decimal digits that an integer is read from or written with. -/
def digitLimit : Nat := 4300

/-- The integer `i` can be written in decimal digits. -/
def isWritable (i : Int) : Bool := i.natAbs < Nat.pow 10 digitLimit

/-- The value of a digit character. -/
def digitValue (c : Char) : Nat := c.toNat - 48

/-- The character `c` is an ASCII digit. -/
def isDigit (c : Char) : Bool := '0' ≤ c && c ≤ '9'

/-- The natural that a sequence of digits denotes in a base. -/
def naturalOf (base : Nat) (value : Char → Nat) (cs : List Char) : Nat :=
  cs.foldl (fun n c => n * base + value c) 0

/-- The natural that decimal digits denote. -/
def decimalNatural (cs : List Char) : Nat := naturalOf 10 digitValue cs

/-- A sign in front of a number, and what follows it. -/
def splitSign : List Char → Bool × List Char
  | '-' :: cs => (true, cs)
  | '+' :: cs => (false, cs)
  | cs => (false, cs)

/-- The exponent part of a decimal: nothing, or `e`, a sign and digits. -/
def readExponent? : List Char → Option Int
  | [] => some 0
  | c :: cs =>
    if c = 'e' ∨ c = 'E' then
      let (negative, digits) := splitSign cs
      if digits.isEmpty || !digits.all isDigit then none
      else some (Binary64.signed negative (decimalNatural digits))
    else none

/-- The number that an unsigned decimal denotes: digits, a fraction and an exponent, of which the
last two may be absent, with at least one digit around the point. -/
def readUnsigned? (negative : Bool) (cs : List Char) : Option Binary64 :=
  let whole := cs.takeWhile isDigit
  let (fraction, rest) :=
    match cs.dropWhile isDigit with
    | '.' :: rest => (rest.takeWhile isDigit, rest.dropWhile isDigit)
    | rest => ([], rest)
  if whole.isEmpty && fraction.isEmpty then none
  else
    (readExponent? rest).map fun e =>
      Binary64.ofDecimal negative (decimalNatural (whole ++ fraction)) (e - fraction.length)

/-- The number that a decimal with an optional sign denotes. -/
def readDecimal? (cs : List Char) : Option Binary64 :=
  let (negative, rest) := splitSign cs
  readUnsigned? negative rest

end SchemaLoom
