/-
Double-precision numbers.

A value is kept as the integers that define it, `± m · 2 ^ q`, so equality is decidable and
everything below is exact arithmetic on naturals.  `ofRatio` is the only place where a value is
rounded: to the nearest double, a tie going to the even significand.

Sums and products are computed exactly and rounded once.  Comparison with integers is exact
(`ltInt`, `intLt`), so that a large integer is told apart from the double nearest to it.
-/
namespace SchemaLoom

/-- A double-precision number; a finite one is `m * 2 ^ q`, with `m < 2 ^ 53` and `-1074 ≤ q`. -/
inductive Binary64 where
  | nan
  | infinite (negative : Bool)
  | finite (negative : Bool) (m : Nat) (q : Int)
  deriving DecidableEq, Repr, Inhabited

namespace Binary64

/-- The least natural with more than 53 binary digits; every significand lies below it. -/
def significandLimit : Nat := 0x20000000000000

/-- Zero with a sign. -/
def zero (negative : Bool) : Binary64 := .finite negative 0 (-1074)

/-- Two to a power that may be negative, as numerator and denominator. -/
def powerOfTwo (q : Int) : Nat × Nat :=
  if 0 ≤ q then (Nat.pow 2 q.toNat, 1) else (1, Nat.pow 2 (-q).toNat)

/-- Ten to a power that may be negative, as numerator and denominator. -/
def powerOfTen (e : Int) : Nat × Nat :=
  if 0 ≤ e then (Nat.pow 10 e.toNat, 1) else (1, Nat.pow 10 (-e).toNat)

/-- A quotient rounded to the nearest natural, ties to even. -/
def roundedQuotient (num den : Nat) : Nat :=
  let quotient := num / den
  let rest := 2 * (num % den)
  if rest < den then quotient
  else if den < rest then quotient + 1
  else if quotient % 2 = 0 then quotient else quotient + 1

/-- The significand of `num / den` at the exponent `q`. -/
def significand (num den : Nat) (q : Int) : Nat :=
  let unit := powerOfTwo q
  roundedQuotient (num * unit.2) (den * unit.1)

/-- The least exponent at which `num / den` has a significand below `2 ^ 53`. -/
def exponentFor (num den : Nat) : Int :=
  let guess := max ((num.log2 : Int) - den.log2 - 53) (-1074)
  let unit := powerOfTwo guess
  if significandLimit * (den * unit.1) ≤ num * unit.2 then guess + 1 else guess

/-- The double nearest to `± num / den`, for a positive `den`. -/
def ofRatio (negative : Bool) (num den : Nat) : Binary64 :=
  if num = 0 then zero negative
  else
    let q := exponentFor num den
    let m := significand num den q
    let (m, q) := if m = significandLimit then (m / 2, q + 1) else (m, q)
    if 971 < q then .infinite negative else .finite negative m q

/-- The number of decimal digits of a natural. -/
def digitCount (n : Nat) : Nat := (Nat.toDigits 10 n).length

/-- The double nearest to `± digits * 10 ^ exponent`. -/
def ofDecimal (negative : Bool) (digits : Nat) (exponent : Int) : Binary64 :=
  if digits = 0 then zero negative
  else if 400 < exponent + digitCount digits then .infinite negative
  else if exponent + digitCount digits < -400 then zero negative
  else
    let scale := powerOfTen exponent
    ofRatio negative (digits * scale.1) scale.2

/-- The double nearest to an integer. -/
def ofInt (i : Int) : Binary64 := ofDecimal (i < 0) i.natAbs 0

/-- The opposite of a number. -/
def neg : Binary64 → Binary64
  | .nan => .nan
  | .infinite negative => .infinite !negative
  | .finite negative m q => .finite (!negative) m q

/-- The product of two numbers, rounded. -/
def mul : Binary64 → Binary64 → Binary64
  | .finite s m q, .finite s' m' q' =>
    let unit := powerOfTwo (q + q')
    ofRatio (s != s') (m * m' * unit.1) unit.2
  | .nan, _ | _, .nan => .nan
  | .infinite s, .finite s' m _ | .finite s' m _, .infinite s =>
    if m = 0 then .nan else .infinite (s != s')
  | .infinite s, .infinite s' => .infinite (s != s')

/-- A sign and a magnitude as an integer. -/
def signed (negative : Bool) (m : Nat) : Int := if negative then -m else m

/-- A signed multiple of `2 ^ q` as a multiple of `2 ^ low`. -/
def atExponent (low : Int) (negative : Bool) (m : Nat) (q : Int) : Int :=
  signed negative (m * Nat.pow 2 (q - low).toNat)

/-- The sum of two numbers, rounded. -/
def add : Binary64 → Binary64 → Binary64
  | .finite s m q, .finite s' m' q' =>
    let low := min q q'
    let sum := atExponent low s m q + atExponent low s' m' q'
    let unit := powerOfTwo low
    ofRatio (sum < 0 || (sum == 0 && s && s')) (sum.natAbs * unit.1) unit.2
  | .nan, _ | _, .nan => .nan
  | .infinite s, .infinite s' => if s = s' then .infinite s else .nan
  | .infinite s, .finite _ _ _ | .finite _ _ _, .infinite s => .infinite s

/-- The integer that a finite number equals, if it is one. -/
def toInt? : Binary64 → Option Int
  | .finite negative m q =>
    let unit := powerOfTwo q
    if (m * unit.1) % unit.2 = 0 then some (signed negative (m * unit.1 / unit.2)) else none
  | _ => none

/-- The first number lies below the second.  Nothing does if one of them is not a number. -/
def lt : Binary64 → Binary64 → Bool
  | .finite s m q, .finite s' m' q' =>
    let low := min q q'
    atExponent low s m q < atExponent low s' m' q'
  | .infinite s, .infinite s' => s && !s'
  | .infinite s, .finite _ _ _ => s
  | .finite _ _ _, .infinite s => !s
  | _, _ => false

/-- The number lies below the integer. -/
def ltInt : Binary64 → Int → Bool
  | .finite s m q, i =>
    let unit := powerOfTwo q
    signed s (m * unit.1) < i * unit.2
  | .infinite s, _ => s
  | .nan, _ => false

/-- The integer lies below the number. -/
def intLt : Int → Binary64 → Bool
  | i, .finite s m q =>
    let unit := powerOfTwo q
    i * unit.2 < signed s (m * unit.1)
  | _, .infinite s => !s
  | _, .nan => false

/-- The two numbers are equal as quantities: the two zeros are, and nothing equals `nan`. -/
def sameValue : Binary64 → Binary64 → Bool
  | .nan, _ | _, .nan => false
  | .finite s m q, .finite s' m' q' => (m == 0 && m' == 0) || (s == s' && m == m' && q == q')
  | .infinite s, .infinite s' => s == s'
  | _, _ => false

end Binary64

end SchemaLoom
