/-
Reading records.

Directive arguments, patches and other declarations arrive as trees.  A form reads one field
after the other and stops at the first that is at fault, so of several faults the one in the
earliest field is reported (`FormFault`); fields that a form does not know come last (`closed`).

Texts are never made out of other values, while a truth value may also be given as one of the
numbers zero and one or as a word (`truth`).

A field is `needed`, `defaulted`, or `renamed` if it can be given under a second name.
-/
import SchemaLoom.Tree

namespace SchemaLoom

/-- What is wrong with a value. -/
inductive FormCause where
  | required
  | notText
  | notList
  /-- The value can never stand for a truth value. -/
  | notTruth
  /-- The value is a number or word that stands for no truth value. -/
  | unknownTruth
  | emptyList
  /-- The value is none of the listed words. -/
  | notAmong (choices : List String)
  | unknownField
  | notRecord (form : String)
  /-- The value cannot have a tag that selects a form. -/
  | notTagged
  | tagMissing (tag : String)
  /-- The tag selects no form. -/
  | tagUnknown (tag found : String) (choices : List String)
  deriving DecidableEq, Repr

/-- A fault and the path to the value that has it. -/
structure FormFault where
  path : List String
  cause : FormCause
  deriving DecidableEq, Repr

/-- Words in quotation marks, separated by commas, with `or` before the last. -/
def alternatives (words : List String) : String :=
  let quoted := words.map fun w => "'" ++ w ++ "'"
  match quoted.getLast? with
  | none => ""
  | some last =>
    let others := quoted.dropLast
    if others.isEmpty then last else ", ".intercalate others ++ " or " ++ last

/-- The wording of a cause. -/
def FormCause.message : FormCause → String
  | required => "Field required"
  | notText => "Input should be a valid string"
  | notList => "Input should be a valid list"
  | notTruth => "Input should be a valid boolean"
  | unknownTruth => "Input should be a valid boolean, unable to interpret input"
  | emptyList => "List should have at least 1 item after validation, not 0"
  | notAmong choices => "Input should be " ++ alternatives choices
  | unknownField => "Extra inputs are not permitted"
  | notRecord form => "Input should be a valid dictionary or instance of " ++ form
  | notTagged => "Input should be a valid dictionary or object to extract fields from"
  | tagMissing tag => "Unable to extract tag using discriminator '" ++ tag ++ "'"
  | tagUnknown tag found choices =>
    "Input tag '" ++ found ++ "' found using '" ++ tag
      ++ "' does not match any of the expected tags: "
      ++ ", ".intercalate (choices.map fun c => "'" ++ c ++ "'")

/-- The wording of a fault, behind its path unless that is empty. -/
def FormFault.message (fault : FormFault) : String :=
  let path := ".".intercalate fault.path
  if path = "" then fault.cause.message else path ++ ": " ++ fault.cause.message

namespace Form

/-- The outcome of reading a value. -/
abbrev Check := Except FormFault

/-- A fault of the value itself. -/
def fault {α : Type} (cause : FormCause) : Check α := .error ⟨[], cause⟩

/-- Reads a part of a value; a fault is reported under the name of the part. -/
def inside {α : Type} (name : String) (check : Check α) : Check α :=
  check.mapError fun f => { f with path := name :: f.path }

/-! ### Single values -/

/-- A text. -/
def text : Tree → Check String
  | .text s => .ok s
  | _ => fault .notText

/-- Anything. -/
def anything (t : Tree) : Check Tree := .ok t

/-- The words for falsity. -/
def falseWords : List String := ["0", "off", "f", "false", "n", "no"]

/-- The words for truth. -/
def trueWords : List String := ["1", "on", "t", "true", "y", "yes"]

/-- The truth value that a word stands for, in capital or small ASCII letters. -/
def truthOfWord (word : String) : Check Bool :=
  let small := String.ofList (word.toList.map Char.toLower)
  if falseWords.contains small then .ok false
  else if trueWords.contains small then .ok true
  else fault .unknownTruth

/-- The truth value that an integer stands for. -/
def truthOfInt (i : Int) : Check Bool :=
  if i = 0 then .ok false
  else if i = 1 then .ok true
  else if -0x8000000000000000 ≤ i ∧ i < 0x8000000000000000 then fault .unknownTruth
  else fault .notTruth

/-- The truth value that a fraction stands for. -/
def truthOfFloat (x : Binary64) : Check Bool :=
  match x.toInt? with
  | some i => if i = -0x8000000000000000 then fault .notTruth else truthOfInt i
  | none => fault .notTruth

/-- A truth value. -/
def truth : Tree → Check Bool
  | .bool b => .ok b
  | .int i => truthOfInt i
  | .float x => truthOfFloat x
  | .text s => truthOfWord s
  | _ => fault .notTruth

/-- One of several words, each with what it stands for. -/
def oneOf {α : Type} (choices : List (String × α)) (t : Tree) : Check α :=
  match t.text?.bind (choices.lookup ·) with
  | some a => .ok a
  | none => fault (.notAmong (choices.map (·.1)))

/-- A value or nothing. -/
def optional {α : Type} (read : Tree → Check α) : Tree → Check (Option α)
  | .null => .ok none
  | t => some <$> read t

/-- Items read one after the other, from a position on. -/
def items {α : Type} (read : Tree → Check α) : Nat → List Tree → Check (List α)
  | _, [] => .ok []
  | i, t :: ts => do
    let first ← inside (toString i) (read t)
    return first :: (← items read (i + 1) ts)

/-- A list. -/
def listOf {α : Type} (read : Tree → Check α) : Tree → Check (List α)
  | .list ts => items read 0 ts
  | _ => fault .notList

/-- A list that is not empty. -/
def someOf {α : Type} (read : Tree → Check α) (t : Tree) : Check (List α) := do
  let all ← listOf read t
  if all.isEmpty then fault .emptyList else return all

/-! ### Records -/

/-- The fields of a record. -/
abbrev Fields := List (Scalar × Tree)

/-- The fields of a record of a form. -/
def fieldsOf (form : String) : Tree → Check Fields
  | .map fields => .ok fields
  | _ => fault (.notRecord form)

/-- The value of a field that must be there. -/
def needed {α : Type} (fields : Fields) (name : String) (read : Tree → Check α) : Check α :=
  match Tree.lookup (.text name) fields with
  | some t => inside name (read t)
  | none => inside name (fault .required)

/-- The value of a field that has a default. -/
def defaulted {α : Type} (fields : Fields) (name : String) (default : α) (read : Tree → Check α) :
    Check α :=
  match Tree.lookup (.text name) fields with
  | some t => inside name (read t)
  | none => .ok default

/-- The value of a field that has a default and a second name; under its first name it is preferred.
A fault is reported under the name that was used. -/
def renamed {α : Type} (fields : Fields) (name second : String) (default : α)
    (read : Tree → Check α) : Check α :=
  match Tree.lookup (.text name) fields with
  | some t => inside name (read t)
  | none =>
    match Tree.lookup (.text second) fields with
    | some t => inside second (read t)
    | none => .ok default

/-- A field that a form knows: its name and perhaps a second one. -/
abbrev Known := String × Option String

/-- The name under which a known field is given, if it is. -/
def usedName (fields : Fields) : Known → List String
  | (name, second) =>
    if (Tree.lookup (.text name) fields).isSome then [name] else second.toList

/-- Refuses fields that were not read; a second name beside the first one counts as such. -/
def closed (fields : Fields) (known : List Known) : Check Unit :=
  let used := known.flatMap (usedName fields)
  match fields.find? fun f => !used.any fun name => Scalar.sameKey f.1 (.text name) with
  | some f => inside f.1.display (fault .unknownField)
  | none => .ok ()

/-- Reads a record by the form that its tag selects. -/
def tagged {α : Type} (tag : String) (forms : List (String × (Tree → Check α))) (t : Tree) :
    Check α :=
  match t with
  | .map fields =>
    match Tree.lookup (.text tag) fields with
    | none => fault (.tagMissing tag)
    | some found =>
      match found.text?.bind (forms.lookup ·) with
      | some read => inside found.display (read t)
      | none => fault (.tagUnknown tag found.display (forms.map (·.1)))
  | _ => fault .notTagged

end Form

end SchemaLoom
