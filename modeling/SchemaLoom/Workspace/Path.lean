/-
Paths of files.

A path is absolute and given by the names on the way from the root.  The name `..` leads back
to the folder above; it is kept in a path until somebody follows it.

A text that begins with exactly two slashes leads to the same place as one that begins with a
single slash, but the path is still written with two.
-/
import SchemaLoom.Artifact.Fragment

namespace SchemaLoom.Workspace

/-- An absolute path. -/
structure Path where
  names : List String
  /-- The path is written with two slashes in front. -/
  isDoubled : Bool := false
  deriving DecidableEq, Repr

/-- The name that leads back to the folder above. -/
def upward : String := ".."

namespace Path

/-- The root. -/
def root : Path := ⟨[], false⟩

/-- The text of a path. -/
def text (p : Path) : String :=
  (if p.isDoubled then "//" else "/") ++ "/".intercalate p.names

/-- The number of slashes that a text begins with. -/
def leadingSlashes (text : String) : Nat := (text.toList.takeWhile (· = '/')).length

/-- The path that a text denotes in a folder. -/
def join (p : Path) (text : String) : Path :=
  let names := Artifact.components text
  if leadingSlashes text = 0 then { p with names := p.names ++ names }
  else ⟨names, leadingSlashes text = 2⟩

/-- A name of the path holds the character that ends names on the disk. -/
def isBroken (p : Path) : Bool := p.names.any fun name => name.toList.contains '\x00'

/-- The last name of a path, empty for the root. -/
def name (p : Path) : String := p.names.getLastD ""

/-- The path without its last name. -/
def parent (p : Path) : Path := { p with names := p.names.dropLast }

/-- The names of a path without those that only lead back. -/
def collapse (place : List String) : List String → List String
  | [] => place
  | name :: rest =>
    collapse (if name = upward then place.dropLast else place ++ [name]) rest

/-- A path in which nothing leads back. -/
def collapsed (p : Path) : Path := ⟨collapse [] p.names, false⟩

end Path

end SchemaLoom.Workspace
