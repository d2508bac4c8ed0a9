/-
Scalars.

A scalar is a value without parts.  As a key of a mapping, a scalar is compared as a
quantity where it is one: a truth value counts as zero or one, and a fraction equals the
integer of the same size.

A text may have code points that are no characters, the surrogates.  Such a text is kept as its
code points; all other texts are kept as they are, so that equal texts are equal scalars.

Of some scalars it matters where they come from: a day or a timestamp that stands in several
places of a text is still one, and a quantity that is not a number equals nothing but itself.
They carry the number of the place they were read from.
-/
import SchemaLoom.Number.Decimal
import SchemaLoom.Text.Escape

namespace SchemaLoom

/-- A day of the calendar. -/
structure Date where
  year : Nat
  month : Nat
  day : Nat
  deriving DecidableEq, Repr

namespace Date

/-- The year has a 29th of February. -/
def isLeap (year : Nat) : Bool := year % 4 == 0 && (year % 100 != 0 || year % 400 == 0)

/-- The number of days of a month. -/
def daysIn (year month : Nat) : Nat :=
  if month = 2 then (if isLeap year then 29 else 28)
  else if month = 4 ∨ month = 6 ∨ month = 9 ∨ month = 11 then 30 else 31

/-- The day `d` exists, in the years from 1 to 9999. -/
def isValid (d : Date) : Bool :=
  1 ≤ d.year && d.year ≤ 9999 && 1 ≤ d.month && d.month ≤ 12 && 1 ≤ d.day
    && d.day ≤ daysIn d.year d.month

/-- The number of days before a day, counted from an arbitrary origin. -/
def ordinal (d : Date) : Nat :=
  let before := d.year - 1
  before * 365 + before / 4 - before / 100 + before / 400
    + (List.range (d.month - 1)).foldl (fun days m => days + daysIn d.year (m + 1)) d.day

end Date

/-- A time of a day, with the distance from universal time in minutes if it is known. -/
structure Timestamp where
  date : Date
  hour : Nat
  minute : Nat
  second : Nat
  microsecond : Nat
  offset : Option Int
  deriving DecidableEq, Repr

/-- A value without parts. -/
inductive Scalar where
  | null
  | bool (truth : Bool)
  | int (value : Int)
  | float (value : Binary64)
  | text (value : String)
  /-- A text given by its code points, because some of them are surrogates. -/
  | codes (value : List Nat)
  | bytes (value : List UInt8)
  | date (value : Date) (origin : Nat)
  | timestamp (value : Timestamp) (origin : Nat)
  /-- A quantity that is not a number, other than the one that all fractions share. -/
  | notANumber (origin : Nat)
  deriving DecidableEq, Repr

namespace Scalar

/-- The text that a sequence of code points is. -/
def ofCodes (value : List Nat) : Scalar :=
  if value.any Text.isSurrogate then codes value else text (String.ofList (value.map Char.ofNat))

/-- The code points of a text. -/
def codes? : Scalar → Option (List Nat)
  | text value => some (value.toList.map Char.toNat)
  | codes value => some value
  | _ => none

/-- The characters of a text; in the place of a surrogate there is the replacement character. -/
def shownText? : Scalar → Option String
  | text value => some value
  | codes value =>
    some (String.ofList (value.map fun code =>
      if Text.isSurrogate code then '\uFFFD' else Char.ofNat code))
  | _ => none

/-- A natural with leading zeros up to a width. -/
def padded (width n : Nat) : String :=
  let digits := Nat.toDigits 10 n
  String.ofList (List.replicate (width - digits.length) '0' ++ digits)

/-- A day in the form `2020-01-31`. -/
def dateText (d : Date) : String :=
  padded 4 d.year ++ "-" ++ padded 2 d.month ++ "-" ++ padded 2 d.day

/-- A distance from universal time in the form `+01:30`. -/
def offsetText (minutes : Int) : String :=
  (if minutes < 0 then "-" else "+") ++ padded 2 (minutes.natAbs / 60) ++ ":"
    ++ padded 2 (minutes.natAbs % 60)

/-- A timestamp in the form `2020-01-31 12:00:00.5+01:00`, parts that are zero or unknown left
out. -/
def timestampText (t : Timestamp) : String :=
  dateText t.date ++ " " ++ padded 2 t.hour ++ ":" ++ padded 2 t.minute ++ ":" ++ padded 2 t.second
    ++ (if t.microsecond = 0 then "" else "." ++ padded 6 t.microsecond)
    ++ (match t.offset with | some minutes => offsetText minutes | none => "")

/-! ### Literals

A literal is the form of a value that messages show.  Displayed text stands for itself,
while text inside a literal is quoted.
-/

/-- Numbers in literals: positional below `10 ^ 16` and down to `10 ^ -4`. -/
def literalFloat : FloatStyle where
  positionalBelow := 16
  positionalFrom := -4
  fractionBeforeExponent := false
  infinity := "inf"
  nan := "nan"

/-- One byte of a quoted byte sequence. -/
def literalByte (mark : Char) (b : UInt8) : List Char :=
  let c := Char.ofNat b.toNat
  if c = mark ∨ c = '\\' then ['\\', c]
  else if c = '\t' then ['\\', 't']
  else if c = '\n' then ['\\', 'n']
  else if c = '\r' then ['\\', 'r']
  else if 32 ≤ c.toNat ∧ c.toNat < 127 then [c]
  else '\\' :: 'x' :: Text.hexDigits false 2 c.toNat

/-- A quoted byte sequence. -/
def literalBytes (bs : List UInt8) : String :=
  let mark := Text.literalMark (bs.map fun b => Char.ofNat b.toNat)
  String.ofList ('b' :: mark :: bs.flatMap (literalByte mark) ++ [mark])

/-- The literal of a scalar. -/
def literal : Scalar → String
  | null => "None"
  | bool truth => if truth then "True" else "False"
  | int value => toString value
  | float value => literalFloat.render value
  | text value => Text.literal value
  | codes value => Text.literalOfCodes value
  | bytes value => literalBytes value
  | date d _ =>
    "datetime.date(" ++ toString d.year ++ ", " ++ toString d.month ++ ", " ++ toString d.day ++ ")"
  | timestamp t _ => timestampText t
  | notANumber _ => literalFloat.nan

/-- The form in which a scalar is displayed. -/
def display : Scalar → String
  | date d _ => dateText d
  | timestamp t _ => timestampText t
  | s => s.shownText?.getD s.literal

/-- The scalar can be displayed: an integer may have too many digits. -/
def isWritable : Scalar → Bool
  | int value => SchemaLoom.isWritable value
  | _ => true

/-! ### Keys -/

/-- The quantity that a scalar denotes, if it denotes one: an integer or a fraction. -/
def quantity? : Scalar → Option (Int ⊕ Binary64)
  | bool truth => some (.inl (if truth then 1 else 0))
  | int value => some (.inl value)
  | float value =>
    match value.toInt? with
    | some i => some (.inl i)
    | none => some (.inr value)
  | notANumber _ => some (.inr .nan)
  | _ => none

/-- The moment that a timestamp denotes, in microseconds of universal time. -/
def moment (t : Timestamp) : Int :=
  let minutes : Int := (t.date.ordinal * 24 + t.hour) * 60 + t.minute - t.offset.getD 0
  (minutes * 60 + t.second) * 1000000 + t.microsecond

/-- The scalars `a` and `b` are the same key of a mapping. -/
def sameKey (a b : Scalar) : Bool :=
  match a, b with
  | notANumber m, notANumber n => m == n
  | notANumber _, _ | _, notANumber _ => false
  | date s _, date t _ => s == t
  | timestamp s _, timestamp t _ => s.offset.isSome == t.offset.isSome && moment s == moment t
  | a, b =>
    match a.quantity?, b.quantity? with
    | some (.inl i), some (.inl j) => i == j
    | some (.inr x), some (.inr y) => x == y || x.sameValue y
    | none, none => a == b
    | _, _ => false

/-- The two quantities are in ascending order. -/
def quantityLt : Int ⊕ Binary64 → Int ⊕ Binary64 → Bool
  | .inl i, .inl j => i < j
  | .inl i, .inr y => Binary64.intLt i y
  | .inr x, .inl j => x.ltInt j
  | .inr x, .inr y => x.lt y

/-- The two byte sequences are in ascending order. -/
def bytesLt : List UInt8 → List UInt8 → Bool
  | _, [] => false
  | [], _ :: _ => true
  | a :: as, b :: bs => a < b || (a == b && bytesLt as bs)

/-- The first of two scalars is the smaller one; `none` if they have no order. -/
def lt? (a b : Scalar) : Option Bool :=
  match a.quantity?, b.quantity? with
  | some x, some y => some (quantityLt x y)
  | none, none =>
    match a, b with
    | bytes s, bytes t => some (bytesLt s t)
    | date s _, date t _ => some (s.ordinal < t.ordinal)
    | timestamp s _, timestamp t _ =>
      if s.offset.isSome == t.offset.isSome then some (moment s < moment t) else none
    | a, b =>
      match a.codes?, b.codes? with
      | some s, some t => some (s < t)
      | _, _ => none
  | _, _ => none

end Scalar

end SchemaLoom
