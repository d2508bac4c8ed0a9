/-
Bytes shown as characters.

Bytes are shown as the text that they encode, one to four bytes to a character.  Bytes that
belong to no character are not lost: as many of them as could begin a character, or else a
single one, are shown as one replacement character.
-/
namespace SchemaLoom.Text

/-- What the first byte of a character announces. -/
structure Lead where
  /-- The number of bytes that follow. -/
  more : Nat
  /-- The least second byte. -/
  low : UInt8 := 0x80
  /-- The greatest second byte. -/
  high : UInt8 := 0xBF
  /-- The part of the character's number that is in the first byte. -/
  bits : Nat

/-- What a byte announces if it is the first one of a character that takes several. -/
def lead? (b : UInt8) : Option Lead :=
  if b < 0xC2 ∨ 0xF4 < b then none
  else if b < 0xE0 then some { more := 1, bits := b.toNat % 32 }
  else if b < 0xF0 then
    some { more := 2, bits := b.toNat % 16, low := if b = 0xE0 then 0xA0 else 0x80,
           high := if b = 0xED then 0x9F else 0xBF }
  else
    some { more := 3, bits := b.toNat % 8, low := if b = 0xF0 then 0x90 else 0x80,
           high := if b = 0xF4 then 0x8F else 0xBF }

/-- The bytes that continue a character. -/
def Lead.tail (l : Lead) : List UInt8 → List UInt8
  | [] => []
  | b :: bs =>
    if l.low ≤ b ∧ b ≤ l.high then
      b :: (bs.take (l.more - 1)).takeWhile fun c => 0x80 ≤ c ∧ c ≤ 0xBF
    else []

/-- The character that bytes continue, or the replacement character if there are too few. -/
def Lead.character (l : Lead) (tail : List UInt8) : Char :=
  if tail.length = l.more then
    Char.ofNat (tail.foldl (fun number b => number * 64 + b.toNat % 64) l.bits)
  else '\uFFFD'

/-- Bytes shown as characters. -/
def shownBytes : List UInt8 → List Char
  | [] => []
  | b :: bs =>
    if b < 0x80 then Char.ofNat b.toNat :: shownBytes bs
    else
      match lead? b with
      | none => '\uFFFD' :: shownBytes bs
      | some l => l.character (l.tail bs) :: shownBytes (bs.drop (l.tail bs).length)
termination_by bs => bs.length

end SchemaLoom.Text
