/-
Trees.

The compiler's configuration, directive arguments and structured artifacts are trees of scalars,
lists and mappings.  Mappings keep the order in which their keys were first written (`insert`).

A tree that was read from a file may hold one part in several places; such a place is a `shared`
leaf, and a `Forest` says what the shared parts are.
-/
import SchemaLoom.Tree.Scalar

namespace SchemaLoom

/-- A tree. -/
inductive Tree where
  | leaf (value : Scalar)
  | list (items : List Tree)
  | map (entries : List (Scalar × Tree))
  | set (members : List Scalar)
  /-- A part that may stand in several places. -/
  | shared (index : Nat)
  deriving Repr, Inhabited

/-- A tree and the parts that its `shared` leaves stand for. -/
structure Forest where
  root : Tree
  parts : List Tree
  deriving Repr, Inhabited

namespace Tree

/-- The absent value. -/
@[match_pattern] abbrev null : Tree := leaf .null

/-- A truth value. -/
@[match_pattern] abbrev bool (truth : Bool) : Tree := leaf (.bool truth)

/-- An integer. -/
@[match_pattern] abbrev int (value : Int) : Tree := leaf (.int value)

/-- A fraction. -/
@[match_pattern] abbrev float (value : Binary64) : Tree := leaf (.float value)

/-- A text. -/
@[match_pattern] abbrev text (value : String) : Tree := leaf (.text value)

/-- A mapping with text keys. -/
def record (entries : List (String × Tree)) : Tree := map (entries.map fun e => (.text e.1, e.2))

/-- The value of a key among the entries of a mapping. -/
def lookup {α : Type} (key : Scalar) : List (Scalar × α) → Option α
  | [] => none
  | (k, v) :: rest => if k.sameKey key then some v else lookup key rest

/-- Entries with the value of a key replaced, or with the key added at the end. -/
def insert {α : Type} (key : Scalar) (value : α) : List (Scalar × α) → List (Scalar × α)
  | [] => [(key, value)]
  | (k, v) :: rest => if k.sameKey key then (k, value) :: rest else (k, v) :: insert key value rest

/-- The value of a text key of a mapping. -/
def get? (key : String) : Tree → Option Tree
  | map entries => lookup (.text key) entries
  | _ => none

/-- The text that a tree is, if it is one. -/
def text? : Tree → Option String
  | text value => some value
  | _ => none

/-- The tree is the absent value. -/
def isNull : Tree → Bool
  | null => true
  | _ => false

mutual

/-- The literal of a tree. -/
def literal : Tree → String
  | leaf value => value.literal
  | list items => "[" ++ ", ".intercalate (literals items) ++ "]"
  | map entries => "\x7b" ++ ", ".intercalate (entryLiterals entries) ++ "\x7d"
  | set members => "\x7b" ++ ", ".intercalate (members.map (·.literal)) ++ "\x7d"
  | shared _ => "..."

/-- The literals of the items of a list. -/
def literals : List Tree → List String
  | [] => []
  | t :: ts => t.literal :: literals ts

/-- The literals of the entries of a mapping. -/
def entryLiterals : List (Scalar × Tree) → List String
  | [] => []
  | (k, v) :: rest => (k.literal ++ ": " ++ v.literal) :: entryLiterals rest

end

/-- The form in which a tree is displayed: text as it stands, anything else as a literal. -/
def display : Tree → String
  | leaf value => value.display
  | t => t.literal

end Tree

namespace Forest

/-- A tree without shared parts. -/
def ofTree (t : Tree) : Forest := ⟨t, []⟩

/-- A tree with a shared part in its place. -/
def resolve (f : Forest) : Tree → Tree
  | .shared index => f.parts.getD index .null
  | t => t

end Forest

end SchemaLoom
