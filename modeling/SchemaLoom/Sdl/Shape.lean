/-
Shapes of field types.

Most of the compiler only looks at the base of a type and at one level of wrapping around
it.  A `Shape` is such a type; `ofRef?` recognises it and `toRef` writes it down again, and
deeper nestings have no shape.
-/
import SchemaLoom.Sdl.Document.Printer

namespace SchemaLoom.Sdl

/-- A type with at most one list around its base, and required marks. -/
structure Shape where
  base : String
  isList : Bool := false
  required : Bool := false
  /-- The items of a list are required; without a list this has no meaning. -/
  itemRequired : Bool := false
  deriving DecidableEq, Repr

namespace Shape

/-- The shape of a reference whose outermost required mark was removed. -/
def ofNullable? : TypeRef → Option Shape
  | .named base => some { base }
  | .list (.named base) => some { base, isList := true }
  | .list (.nonNull (.named base)) => some { base, isList := true, itemRequired := true }
  | _ => none

/-- The shape of a reference, if its nesting is shallow enough. -/
def ofRef? : TypeRef → Option Shape
  | .nonNull inner => (ofNullable? inner).map fun s => { s with required := true }
  | ref => ofNullable? ref

/-- The reference that a shape stands for. -/
def toRef (s : Shape) : TypeRef :=
  let item : TypeRef := .named s.base
  let inner := if s.isList then .list (if s.itemRequired then .nonNull item else item) else item
  if s.required then .nonNull inner else inner

/-- The written form of a shape. -/
def render (s : Shape) : String := s.toRef.render

/-- The same wrapping around another base. -/
def renamed (s : Shape) (base : String) : Shape := { s with base }

/-- A shape without its outermost required mark. -/
def optional (s : Shape) : Shape := { s with required := false }

end Shape

end SchemaLoom.Sdl
