/-
Relations between tables.

A `Relation` is declared on a field whose base type is the related table.  Which end of a
relation it is, its `RelationKind`, is known only when all tables are.
-/
import SchemaLoom.Form
import SchemaLoom.Sdl.Shape

namespace SchemaLoom

/-- The kinds of relations. -/
inductive RelationKind where
  | hasMany | hasOne | belongsTo
  deriving DecidableEq, Repr

/-- The word for a kind. -/
def RelationKind.text : RelationKind → String
  | hasMany => "has-many"
  | hasOne => "has-one"
  | belongsTo => "belongs-to"

/-- A relation. -/
structure Relation where
  field : String
  target : String
  shape : Sdl.Shape
  /-- The name that both ends of a relation share; it also names the index behind it. -/
  name : Option String := none
  /-- The attribute that holds the key of the other item. -/
  foreignKey : Option String := none
  /-- The attribute of the declaring item by which the relation is resolved. -/
  myKey : Option String := none
  /-- The attribute of the related item by which the relation is resolved. -/
  yourKey : Option String := none
  /-- The attribute by which related items are sorted. -/
  sortField : Option String := none
  kind : Option RelationKind := none
  deriving DecidableEq, Repr

/-- Reads a shape. -/
def Sdl.Shape.read (t : Tree) : Form.Check Sdl.Shape := do
  let given ← Form.fieldsOf "TypeShape" t
  let base ← Form.needed given "base" Form.text
  let isList ← Form.defaulted given "is_list" false Form.truth
  let required ← Form.defaulted given "required" false Form.truth
  let itemRequired ← Form.defaulted given "item_required" false Form.truth
  return { base, isList, required, itemRequired }

namespace Relation

/-- The relation `r` leads to many items. -/
def toMany (r : Relation) : Bool := r.shape.isList

/-- The relation `r` has a name that is not empty. -/
def isNamed (r : Relation) : Bool := r.name.any (· ≠ "")

/-- The resolver of `r` is written by hand: without a name there is no index. -/
def isCustom (r : Relation) : Bool := !r.isNamed

/-- Reads the options of a relation with the given ends. -/
def readOptions (field target : String) (shape : Sdl.Shape) (given : Form.Fields) :
    Form.Check Relation := do
  let word := Form.optional Form.text
  let name ← Form.defaulted given "name" none word
  let foreignKey ← Form.renamed given "foreignKey" "foreign_key" none word
  let myKey ← Form.renamed given "myKey" "my_key" none word
  let yourKey ← Form.renamed given "yourKey" "your_key" none word
  let sortField ← Form.renamed given "sortField" "sort_field" none word
  let kinds := [RelationKind.hasMany, .hasOne, .belongsTo].map fun k => (k.text, k)
  let kind ← Form.defaulted given "kind" none (Form.optional (Form.oneOf kinds))
  return { field, target, shape, name, foreignKey, myKey, yourKey, sortField, kind }

/-- The relation that a field of a shape declares with the given options. -/
def declared (field : String) (shape : Sdl.Shape) (options : Form.Fields) : Form.Check Relation :=
  readOptions field shape.base shape options

/-- Reads a relation with its ends. -/
def read (t : Tree) : Form.Check Relation := do
  let given ← Form.fieldsOf "ConnectionSpec" t
  let field ← Form.needed given "field" Form.text
  let target ← Form.needed given "target" Form.text
  let shape ← Form.needed given "shape" Sdl.Shape.read
  readOptions field target shape given

end Relation

end SchemaLoom
