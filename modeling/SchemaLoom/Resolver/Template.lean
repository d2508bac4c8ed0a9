/-
Resolver templates.

A template is a list of lines.  It is put together from single statements, from blocks that
open and close on lines of their own, and from map literals with one member a line.  What is
nested is moved two columns to the right; blank lines stay blank.
-/
import SchemaLoom.Text.Layout

namespace SchemaLoom.Resolver

/-- A template, as its lines. -/
abbrev Template := List String

/-- The text of a template: every line is ended. -/
def Template.text (t : Template) : String := String.join (t.map (· ++ "\n"))

theorem Template.text_append (s t : Template) :
    Template.text (s ++ t) = Template.text s ++ Template.text t := by
  simp [Template.text]

/-! ### Layout -/

/-- A line moved to the right. -/
def shiftedLine (line : String) : String := if line = "" then "" else "  " ++ line

/-- Lines moved to the right. -/
def shifted (t : Template) : Template := t.map shiftedLine

/-- Lines of which the first is moved to the right. -/
def hanging : Template → Template
  | [] => []
  | line :: rest => shiftedLine line :: rest

/-- Lines with a mark behind the last. -/
def endedBy (mark : String) : Template → Template
  | [] => []
  | [line] => [line ++ mark]
  | line :: rest => line :: endedBy mark rest

/-! ### Statements -/

/-- A remark. -/
def remark (words : String) : String := "## " ++ words ++ " **"

/-- Sets a variable. -/
def assign (target value : String) : String := "#set( " ++ target ++ " = " ++ value ++ " )"

/-- Evaluates an expression for what it does. -/
def perform (expression : String) : String := "$util.qr(" ++ expression ++ ")"

/-- Turns the caller away. -/
def reject : String := "$util.unauthorized()"

/-! ### Expressions -/

/-- A text in quotation marks. -/
def quoted (s : String) : String := "\"" ++ s ++ "\""

/-- A named value. -/
def named (name value : String) : String := quoted name ++ ": " ++ value

/-- An argument of the operation. -/
def argument (name : String) : String := "$ctx.args." ++ name

/-- A field of the input of a mutation. -/
def input (field : String) : String := "$ctx.args.input." ++ field

/-- The condition that `expression` has a value. -/
def isGiven (expression : String) : String := "!$util.isNull(" ++ expression ++ ")"

/-- An expression, or another in case the first has no value. -/
def orElse (expression default : String) : String :=
  "$util.defaultIfNull(" ++ expression ++ ", " ++ default ++ ")"

/-- The stored form of a value. -/
def stored (expression : String) : String := "$util.dynamodb.toDynamoDB(" ++ expression ++ ")"

/-- Puts a named value into a map. -/
def put (target name value : String) : String :=
  perform (target ++ ".put(" ++ quoted name ++ ", " ++ value ++ ")")

/-- Puts a field into the input of a mutation. -/
def putInput (field value : String) : String := put "$ctx.args.input" field value

/-- A map literal on one line. -/
def inlineMap (members : List String) : String := "\x7b " ++ ", ".intercalate members ++ " \x7d"

/-! ### Blocks -/

/-- Lines that count under a condition. -/
def block (condition : String) (body : Template) : Template :=
  ("#if( " ++ condition ++ " )") :: body ++ ["#end"]

/-- Lines that count under a condition, and lines that count otherwise. -/
def branch (condition : String) (body otherwise : Template) : Template :=
  ("#if( " ++ condition ++ " )") :: body ++ "#else" :: otherwise ++ ["#end"]

/-- Nested lines that count under a condition. -/
def whenever (condition : String) (body : Template) : Template := block condition (shifted body)

/-- Nested lines of which the first count under a condition and the others otherwise. -/
def choose (condition : String) (body otherwise : Template) : Template :=
  branch condition (shifted body) (shifted otherwise)

/-- Nested lines that count for every item of a collection. -/
def forEach (item collection : String) (body : Template) : Template :=
  ("#foreach( " ++ item ++ " in " ++ collection ++ " )") :: shifted body ++ ["#end"]

/-- Members of a map literal, with commas between them. -/
def members : List Template → Template
  | [] => []
  | [m] => m
  | m :: ms => endedBy "," m ++ members ms

/-- A map literal between the rest of its first and of its last line. -/
def mapping (lead : String) (ms : List Template) (tail : String) : Template :=
  (lead ++ "\x7b") :: shifted (members ms) ++ ["\x7d" ++ tail]

/-- A map literal as a member of another. -/
def submap (name : String) (ms : List String) : Template :=
  mapping (quoted name ++ ": ") (ms.map fun m => [m]) ""

/-- A request to the storage. -/
def request (version operation : String) (more : List Template) : Template :=
  mapping ""
    ([named "version" (quoted version)] :: [named "operation" (quoted operation)] :: more) ""

/-- Reports the error of the storage, if there is one. -/
def reportError : Template :=
  whenever "$ctx.error" ["$util.error($ctx.error.message, $ctx.error.type)"]

/-- What a template shows in place of a name that is not there. -/
def absentName : String := "None"

/-- A name as templates show it. -/
def shownName (name : Option String) : String := name.getD absentName

end SchemaLoom.Resolver
