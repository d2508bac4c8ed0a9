/-
Reading of command lines.

First every word gets a `Role`.  It is an option if it begins with a dash, unless it is a dash
alone, looks like a negative number or has a space in it; the word `--` makes all words after it
operands.  A long option may be abbreviated as long as no other one has the same beginning.

Then the words are taken one after the other (`scan`).  An option (`Switch`) takes its arguments
from the operands that follow it, as many as its `Arity` says; a command takes its own operands
from the first ones that no option has taken.  What nobody takes is left over.  All that can be
wrong with a command line is a `UsageFault`, with its wording.
-/
import SchemaLoom.Text.CharClass
import SchemaLoom.Text.Escape

namespace SchemaLoom.Command

/-! ### Options -/

/-- How many arguments an option takes. -/
inductive Arity where
  /-- None at all. -/
  | flag
  | one
  /-- One or more. -/
  | many
  deriving DecidableEq, Repr

/-- An option. -/
structure Switch where
  /-- The names by which it goes, each beginning with a dash. -/
  names : List String
  arity : Arity := .flag
  deriving DecidableEq, Repr

/-- How messages call an option. -/
def Switch.title (s : Switch) : String := "/".intercalate s.names

/-- The option that asks for help; every command has it. -/
def helpSwitch : Switch := { names := ["-h", "--help"] }

/-- What is wrong with a command line. -/
inductive UsageFault where
  /-- A word abbreviates the names of several options. -/
  | ambiguous (word : String) (names : List String)
  | expectsOne (s : Switch)
  | expectsSome (s : Switch)
  /-- An argument is attached to an option that takes none. -/
  | unwanted (s : Switch) (argument : String)
  | unknownCommand (word : String) (known : List String)
  /-- Words are left over. -/
  | unrecognized (words : List String)
  deriving DecidableEq, Repr

/-- The wording of a fault. -/
def UsageFault.message : UsageFault → String
  | ambiguous word names =>
    "ambiguous option: " ++ word ++ " could match " ++ ", ".intercalate names
  | expectsOne s => "argument " ++ s.title ++ ": expected one argument"
  | expectsSome s => "argument " ++ s.title ++ ": expected at least one argument"
  | unwanted s argument =>
    "argument " ++ s.title ++ ": ignored explicit argument " ++ Text.literal argument
  | unknownCommand word known =>
    "argument COMMAND: invalid choice: " ++ Text.literal word ++ " (choose from "
      ++ ", ".intercalate (known.map Text.literal) ++ ")"
  | unrecognized words => "unrecognized arguments: " ++ " ".intercalate words

/-! ### Commands -/

/-- The operands of a command. -/
inductive Operands where
  /-- At most one word. -/
  | atMostOne
  /-- A word and everything that follows it. -/
  | rest
  deriving DecidableEq, Repr

/-- What a command understands. -/
structure Grammar where
  switches : List Switch
  operands : Operands

/-! ### Roles of words -/

/-- An option as it is written. -/
structure Spelling where
  /-- The option that is meant, unless there is none. -/
  meant : Option Switch := none
  /-- It is written with a single dash. -/
  isShort : Bool := false
  /-- The text that is attached to the option. -/
  attachment : Option String := none
  deriving DecidableEq, Repr

/-- What a word of a command line is. -/
inductive Role where
  | operand
  /-- The word after which all words are operands. -/
  | separator
  | option (s : Spelling)
  deriving DecidableEq, Repr

/-- The word after which all words are operands. -/
def separatorWord : String := "--"

/-- The word begins with two dashes. -/
def isLong (word : String) : Bool := separatorWord.toList.isPrefixOf word.toList

/-- What stands before the first equals sign of a word, and what stands behind it. -/
def splitAtEquals (word : String) : String × Option String :=
  let name := word.toList.takeWhile (· ≠ '=')
  match word.toList.drop name.length with
  | [] => (word, none)
  | _ :: value => (String.ofList name, some (String.ofList value))

/-- All of `cs` are decimal digits, and there is one. -/
def areDigits (cs : List Char) : Bool := !cs.isEmpty && cs.all Text.isDecimalDigit

/-- The characters look like a negative number, maybe at the end of a line. -/
def isNegativeNumber : List Char → Bool
  | '-' :: cs =>
    let body := if cs.getLast? = some '\n' then cs.dropLast else cs
    let whole := body.takeWhile (· ≠ '.')
    match body.drop whole.length with
    | [] => areDigits whole
    | _ :: fraction => whole.all Text.isDecimalDigit && areDigits fraction
  | _ => false

namespace Grammar

/-- The option of a name. -/
def switch? (g : Grammar) (name : String) : Option Switch :=
  g.switches.find? (·.names.contains name)

/-- All names of options. -/
def names (g : Grammar) : List String := g.switches.flatMap (·.names)

/-- The names that a word abbreviates. -/
def abbreviated (g : Grammar) (word : String) : List String :=
  g.names.filter fun name => word.toList.isPrefixOf name.toList

/-- The names that a word can stand for, and how it is then to be read. -/
def readings (g : Grammar) (word : String) : List (String × Spelling) :=
  if isLong word then
    let (start, value) := splitAtEquals word
    (g.abbreviated start).map fun name =>
      (name, { meant := g.switch? name, attachment := value })
  else
    let name := String.ofList (word.toList.take 2)
    let attachment := String.ofList (word.toList.drop 2)
    match g.switch? name with
    | some s => [(name, { meant := some s, isShort := true, attachment := some attachment })]
    | none => []

/-- The spelling of a word that is an option as it stands, or up to an equals sign. -/
def spelledOut? (g : Grammar) (word : String) : Option Spelling :=
  match g.switch? word, splitAtEquals word with
  | some s, _ => some { meant := some s, isShort := !isLong word }
  | none, (name, some value) =>
    (g.switch? name).map fun s =>
      { meant := some s, isShort := !isLong name, attachment := some value }
  | none, (_, none) => none

/-- The role of a word, if no separator came before it. -/
def role (g : Grammar) (word : String) : Except UsageFault Role :=
  match word.toList with
  | '-' :: _ :: _ =>
    match g.spelledOut? word, g.readings word with
    | some s, _ => .ok (.option s)
    | none, [reading] => .ok (.option reading.2)
    | none, [] =>
      if isNegativeNumber word.toList || word.toList.contains ' ' then .ok .operand
      else .ok (.option {})
    | none, several => .error (.ambiguous word (several.map (·.1)))
  | _ => .ok .operand

/-- A word and what it is. -/
abbrev Marked := String × Role

/-- The roles of words. -/
def roles (g : Grammar) : List String → Except UsageFault (List Marked)
  | [] => .ok []
  | word :: rest =>
    if word = separatorWord then
      .ok ((word, .separator) :: rest.map fun other => (other, .operand))
    else do
      let role ← g.role word
      return (word, role) :: (← g.roles rest)

end Grammar

/-! ### Options and their arguments -/

/-- What an option and the options attached to it take. -/
structure Taken where
  uses : List (Switch × List String)
  leftOver : List String := []
  /-- The number of operands taken from behind. -/
  count : Nat := 0

/-- An option with the arguments that it takes from the operands behind it. -/
def Switch.take (s : Switch) (behind : List String) : Except UsageFault Taken :=
  match s.arity, behind with
  | .flag, _ => .ok { uses := [(s, [])] }
  | .one, word :: _ => .ok { uses := [(s, [word])], count := 1 }
  | .one, [] => .error (.expectsOne s)
  | .many, [] => .error (.expectsSome s)
  | .many, words => .ok { uses := [(s, words)], count := words.length }

/-- An option with the text that is attached to it.  The separator counts as no argument, even
here. -/
def Switch.takeAttached (s : Switch) (text : String) : Except UsageFault Taken :=
  if s.arity = .flag then .error (.unwanted s text)
  else .ok { uses := [(s, if text = separatorWord then [] else [text])] }

namespace Grammar

/-- A short option with characters attached to it.  They are its argument or, if it takes none,
further short options. -/
def takeShort (g : Grammar) (behind : List String) (s : Switch) :
    List Char → Except UsageFault Taken
  | [] => s.takeAttached ""
  | c :: cs =>
    if s.arity ≠ .flag then s.takeAttached (String.ofList (c :: cs))
    else
      match g.switch? (String.ofList ['-', c]) with
      | none => .error (.unwanted s (String.ofList (c :: cs)))
      | some next => do
        let taken ←
          match cs with
          | [] => next.take behind
          | d :: ds => g.takeShort behind next (d :: ds)
        return { taken with uses := (s, []) :: taken.uses }

/-- What an option takes. -/
def take (g : Grammar) (word : String) (spelling : Spelling) (behind : List String) :
    Except UsageFault Taken :=
  match spelling.meant, spelling.attachment with
  | none, _ => .ok { uses := [], leftOver := [word] }
  | some s, none => s.take behind
  | some s, some text =>
    if spelling.isShort then g.takeShort behind s text.toList else s.takeAttached text

end Grammar

/-! ### Command lines -/

/-- Why the reading of a command line ends before its time. -/
inductive Stop where
  | help
  | fault (f : UsageFault)

/-- What a command line says. -/
structure Line where
  /-- The options with their arguments, in order. -/
  uses : List (Switch × List String) := []
  /-- The operands, with a separator that stands among them. -/
  operands : Option (List String) := none
  /-- The words that nobody took. -/
  leftOver : List String := []

/-- The word is an operand. -/
def isOperand : Grammar.Marked → Bool
  | (_, .operand) => true
  | _ => false

/-- The word is a separator. -/
def isSeparator : Grammar.Marked → Bool
  | (_, .separator) => true
  | _ => false

/-- The number of words that are taken as operands. -/
def Operands.count (o : Operands) (words : List Grammar.Marked) : Nat :=
  let before := (words.takeWhile isSeparator).length
  match o, words.drop before with
  | .atMostOne, [] => before
  | .atMostOne, word :: behind =>
    if isOperand word then before + 1 + (behind.takeWhile isSeparator).length else before
  | .rest, [] => 0
  | .rest, word :: _ => if isOperand word then words.length else 0

namespace Grammar

/-- Takes the words of a command line one after the other. -/
def scan (g : Grammar) (line : Line) : List Marked → Except Stop Line
  | [] => .ok line
  | (word, .option spelling) :: rest =>
    match g.take word spelling ((rest.takeWhile isOperand).map (·.1)) with
    | .error f => .error (.fault f)
    | .ok taken =>
      if taken.uses.any fun use => use.1 = helpSwitch then .error .help
      else
        g.scan { line with
          uses := line.uses ++ taken.uses
          leftOver := line.leftOver ++ taken.leftOver } (rest.drop taken.count)
  | first :: rest =>
    let count := if line.operands.isSome then 0 else g.operands.count (first :: rest)
    if count = 0 then g.scan { line with leftOver := line.leftOver ++ [first.1] } rest
    else
      g.scan { line with operands := some (((first :: rest).take count).map (·.1)) }
        (rest.drop (count - 1))
termination_by words => words.length
decreasing_by all_goals simp only [List.length_cons, List.length_drop]; omega

/-- What a command line says. -/
def read (g : Grammar) (words : List String) : Except Stop Line :=
  match g.roles words with
  | .error f => .error (.fault f)
  | .ok marked => g.scan {} marked

end Grammar

namespace Line

/-- The arguments that an option was last given. -/
def arguments? (l : Line) (s : Switch) : Option (List String) :=
  (l.uses.reverse.find? fun use => use.1 = s).map (·.2)

/-- The option `s` was given. -/
def has (l : Line) (s : Switch) : Bool := (l.arguments? s).isSome

/-- The operand of a line that has at most one. -/
def operand? (l : Line) : Option String := ((l.operands.getD []).erase separatorWord).head?

end Line

end SchemaLoom.Command
