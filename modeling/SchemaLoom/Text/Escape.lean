/-
Quoted text in its three written forms.

* `literal`: the form of a value shown to a reader, in single quotes unless that would
  force an escape which double quotes avoid;
* `asciiQuoted`: double quotes, everything beyond printable ASCII as 16-bit units;
* `controlQuoted`: double quotes, only control characters escaped.

Each form is a character-wise encoding between two quotation marks.
-/
import SchemaLoom.Text.Printable

namespace SchemaLoom.Text

/-- The digit characters for values below sixteen. -/
def hexDigit (upper : Bool) (d : Nat) : Char :=
  if d < 10 then Char.ofNat (48 + d) else Char.ofNat ((if upper then 55 else 87) + d)

/-- The `width` lowest hexadecimal digits of a number, most significant first. -/
def hexDigits (upper : Bool) : Nat → Nat → List Char
  | 0, _ => []
  | width + 1, n => hexDigits upper width (n / 16) ++ [hexDigit upper (n % 16)]

/-- The value of a hexadecimal digit. -/
def hexValue? (c : Char) : Option Nat :=
  if '0' ≤ c ∧ c ≤ '9' then some (c.toNat - 48)
  else if 'a' ≤ c ∧ c ≤ 'f' then some (c.toNat - 87)
  else if 'A' ≤ c ∧ c ≤ 'F' then some (c.toNat - 55)
  else none

/-- The code point is a surrogate, which is half of a character and none by itself. -/
def isSurrogate (code : Nat) : Bool := 0xD800 ≤ code && code < 0xE000

/-- A code point in the form `U+00E9`: at least four digits. -/
def codePointName (c : Char) : String :=
  let width := if c.toNat < 0x10000 then 4 else if c.toNat < 0x100000 then 5 else 6
  String.ofList ('U' :: '+' :: hexDigits true width c.toNat)

/-! ### Values shown to a reader -/

/-- One character of a literal whose quotation mark is `mark`. -/
def literalChar (mark : Char) (c : Char) : List Char :=
  if c = mark ∨ c = '\\' then ['\\', c]
  else if c = '\t' then ['\\', 't']
  else if c = '\n' then ['\\', 'n']
  else if c = '\r' then ['\\', 'r']
  else if isPrintable c then [c]
  else if c.toNat < 0x100 then '\\' :: 'x' :: hexDigits false 2 c.toNat
  else if c.toNat < 0x10000 then '\\' :: 'u' :: hexDigits false 4 c.toNat
  else '\\' :: 'U' :: hexDigits false 8 c.toNat

/-- The quotation mark of a literal: double if the text holds single marks but no double one. -/
def literalMark (cs : List Char) : Char :=
  if cs.contains '\'' && !cs.contains '"' then '"' else '\''

/-- The literal of a text. -/
def literal (s : String) : String :=
  let mark := literalMark s.toList
  String.ofList (mark :: s.toList.flatMap (literalChar mark) ++ [mark])

/-- The literal of a sequence of code points: surrogates are escaped. -/
def literalOfCodes (codes : List Nat) : String :=
  let mark := literalMark (codes.map Char.ofNat)
  let literalCode := fun (code : Nat) =>
    if isSurrogate code then '\\' :: 'u' :: hexDigits false 4 code
    else literalChar mark (Char.ofNat code)
  String.ofList (mark :: codes.flatMap literalCode ++ [mark])

/-! ### Sixteen-bit units -/

/-- The 16-bit units of a character: one, or a pair of surrogates. -/
def units16 (c : Char) : List Nat :=
  if c.toNat < 0x10000 then [c.toNat]
  else [0xD800 + (c.toNat - 0x10000) / 0x400, 0xDC00 + (c.toNat - 0x10000) % 0x400]

/-- One character of a text quoted in ASCII. -/
def asciiQuotedChar (c : Char) : List Char :=
  if c = '"' ∨ c = '\\' then ['\\', c]
  else if c = '\n' then ['\\', 'n']
  else if c = '\r' then ['\\', 'r']
  else if c = '\t' then ['\\', 't']
  else if c = '\x08' then ['\\', 'b']
  else if c = '\x0c' then ['\\', 'f']
  else if 32 ≤ c.toNat ∧ c.toNat < 127 then [c]
  else (units16 c).flatMap fun u => '\\' :: 'u' :: hexDigits false 4 u

/-- A text quoted in ASCII. -/
def asciiQuoted (s : String) : String :=
  String.ofList ('"' :: s.toList.flatMap asciiQuotedChar ++ ['"'])

/-- A list of texts, each quoted in ASCII. -/
def asciiQuotedList (items : List String) : String :=
  "[" ++ ", ".intercalate (items.map asciiQuoted) ++ "]"

/-! ### Control characters only -/

/-- One character of a text in which only quotation marks, backslashes and controls are escaped. -/
def controlQuotedChar (c : Char) : List Char :=
  if c = '"' ∨ c = '\\' then ['\\', c]
  else if c = '\n' then ['\\', 'n']
  else if c = '\r' then ['\\', 'r']
  else if c = '\t' then ['\\', 't']
  else if c = '\x08' then ['\\', 'b']
  else if c = '\x0c' then ['\\', 'f']
  else if c.toNat < 32 ∨ (127 ≤ c.toNat ∧ c.toNat < 160) then
    '\\' :: 'u' :: hexDigits true 4 c.toNat
  else [c]

/-- A text quoted with escaped controls. -/
def controlQuoted (s : String) : String :=
  String.ofList ('"' :: s.toList.flatMap controlQuotedChar ++ ['"'])

end SchemaLoom.Text
