/-
Tokens of the schema definition language.

A text that cannot be divided into tokens has an `invalid` token where the division stops; a text
that can has `eof` there.  So every text has a token sequence, and whether it is well formed is a
question about the last token alone.

Numbers are tokens as they are written.  Quoted texts are tokens of what they denote, with
escapes resolved and blocks dedented.
-/
namespace SchemaLoom.Sdl

/-- The punctuation marks of the language. -/
inductive Punctuator where
  | bang | dollar | ampersand | parenLeft | parenRight | spread | colon | equals | at
  | bracketLeft | bracketRight | braceLeft | pipe | braceRight
  deriving DecidableEq, Repr

namespace Punctuator

/-- How a punctuation mark is written. -/
def text : Punctuator → String
  | bang => "!"
  | dollar => "$"
  | ampersand => "&"
  | parenLeft => "("
  | parenRight => ")"
  | spread => "..."
  | colon => ":"
  | equals => "="
  | «at» => "@"
  | bracketLeft => "["
  | bracketRight => "]"
  | braceLeft => "\x7b"
  | pipe => "|"
  | braceRight => "\x7d"

/-- The punctuation mark written as a single character, if that character is one. -/
def ofChar? : Char → Option Punctuator
  | '!' => some bang
  | '$' => some dollar
  | '&' => some ampersand
  | '(' => some parenLeft
  | ')' => some parenRight
  | ':' => some colon
  | '=' => some equals
  | '@' => some «at»
  | '[' => some bracketLeft
  | ']' => some bracketRight
  | '\x7b' => some braceLeft
  | '|' => some pipe
  | '\x7d' => some braceRight
  | _ => none

end Punctuator

/-- Why a text cannot be divided into tokens.  A missing character is the end of the text. -/
inductive LexFault where
  /-- A quoted text does not end. -/
  | unterminatedString
  /-- A backslash is followed by something that is no escape. -/
  | badEscape (sequence : String)
  /-- A numeric escape does not name a character. -/
  | badUnicodeEscape (sequence : String)
  /-- A number lacks a digit. -/
  | digitExpected (found : Option Char)
  /-- A number starts with a zero and goes on with a digit. -/
  | digitAfterZero (found : Option Char)
  /-- A text is quoted with an apostrophe. -/
  | singleQuote
  /-- No token starts with this character. -/
  | unexpectedCharacter (found : Char)
  deriving DecidableEq, Repr

/-- A token. -/
inductive Token where
  | eof
  | punctuator (mark : Punctuator)
  | name (value : String)
  | int (digits : String)
  | float (digits : String)
  | string (value : String)
  | blockString (value : String)
  | invalid (fault : LexFault)
  deriving DecidableEq, Repr

namespace Token

/-- The name of a token's kind, punctuation marks in quotes. -/
def kindName : Token → String
  | eof => "<EOF>"
  | punctuator mark => "'" ++ mark.text ++ "'"
  | name _ => "Name"
  | int _ => "Int"
  | float _ => "Float"
  | string _ => "String"
  | blockString _ => "BlockString"
  | invalid _ => "Invalid"

/-- The text that a token carries, if it is of a kind that carries one. -/
def value? : Token → Option String
  | name v | int v | float v | string v | blockString v => some v
  | eof | punctuator _ | invalid _ => none

/-- A token as messages name it: its kind and the text that it carries. -/
def describe (t : Token) : String :=
  match t.value? with
  | some v => t.kindName ++ " '" ++ v ++ "'"
  | none => t.kindName

end Token

end SchemaLoom.Sdl
