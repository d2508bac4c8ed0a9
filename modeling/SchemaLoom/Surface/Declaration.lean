/-
Generated declarations.

The declarations that the compiler generates use a small part of the schema language.  Their
names are those that directives give, as they are: whether a text made of them is a schema
document is found out when it is read.

A `Declaration` is made of `Operation`s, of `Entry`s or of the values of an enum.  Where two
sources give an entry of one name, the first of them counts (`firstOfName`).
-/
import SchemaLoom.Sdl.Shape

namespace SchemaLoom.Surface

/-- A field of an input, or an argument of an operation. -/
structure Entry where
  name : String
  type : Sdl.Shape
  deriving DecidableEq, Repr

namespace Entry

/-- An entry of a plain type. -/
def plain (name base : String) : Entry := ⟨name, { base }⟩

/-- An entry of a list of a type. -/
def list (name base : String) : Entry := ⟨name, { base, isList := true }⟩

/-- An entry of a required type. -/
def needed (name base : String) : Entry := ⟨name, { base, required := true }⟩

/-- The text of an entry. -/
def render (e : Entry) : String := e.name ++ ": " ++ e.type.render

/-- Entries without those whose name occurred before. -/
def firstOfName : List Entry → List Entry
  | [] => []
  | e :: es => e :: (firstOfName es).filter fun other => other.name ≠ e.name

/-- No two entries that are left have one name. -/
theorem nodup_firstOfName (es : List Entry) : ((firstOfName es).map (·.name)).Nodup := by
  induction es with
  | nil => simp [firstOfName]
  | cons e es ih =>
    rw [firstOfName, List.map_cons, List.nodup_cons]
    refine ⟨?_, (List.filter_sublist.map _).nodup ih⟩
    simp

end Entry

/-- A field of a generated type. -/
structure Operation where
  name : String
  arguments : List Entry := []
  type : Sdl.Shape
  /-- The directives that open the field to callers. -/
  directives : List String := []
  deriving DecidableEq, Repr

/-- Directives without arguments, each behind a blank. -/
def renderMarks (names : List String) : String := String.join (names.map (" @" ++ ·))

/-- The text of an operation. -/
def Operation.render (o : Operation) : String :=
  let arguments := ", ".intercalate (o.arguments.map (·.render))
  o.name ++ "(" ++ arguments ++ "): " ++ o.type.render ++ renderMarks o.directives

/-- A generated declaration. -/
inductive Declaration where
  /-- Operations that are added to a root type. -/
  | extension (root : String) (operations : List Operation)
  /-- A root type without operations of its own. -/
  | root (name : String)
  | object (name : String) (fields : List Entry)
  | input (name : String) (fields : List Entry)
  | enum (name : String) (values : List String)
  deriving DecidableEq, Repr

/-- Lines in braces behind a heading. -/
def bracedLines (heading : String) (lines : List String) : String :=
  heading ++ " \x7b\n" ++ Text.unlines (lines.map ("  " ++ ·)) ++ "\n\x7d"

/-- The text of a declaration. -/
def Declaration.render : Declaration → String
  | extension type operations => bracedLines ("extend type " ++ type) (operations.map (·.render))
  | root name => "type " ++ name
  | object name fields => bracedLines ("type " ++ name) (fields.map (·.render))
  | input name fields => bracedLines ("input " ++ name) (fields.map (·.render))
  | enum name values => bracedLines ("enum " ++ name) values

/-- The text of a document of declarations. -/
def renderDocument (ds : List Declaration) : String :=
  "\n\n".intercalate (ds.map (·.render)) ++ "\n"

end SchemaLoom.Surface
