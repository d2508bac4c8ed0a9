/-
The catalog of a compilation.

A `Catalog` holds the document that is compiled and what its directives declare: tables, bindings
of single fields, and access rules of fields.  It also answers questions about the types of the
document, such as the `category` in which a type takes part in generated inputs.

Tables are found by name (`table?`), and `register` refuses a name that is taken.
-/
import SchemaLoom.Sdl.Site
import SchemaLoom.Table

namespace SchemaLoom

/-- A binding of a single field. -/
inductive Binding where
  /-- A field is computed by a function. -/
  | function (type field source : String)
  /-- A relation of an input type is given by the key of the related item. -/
  | foreignInput (type field foreignKey : String) (isCondition : Bool)
  deriving DecidableEq, Repr

/-- A catalog. -/
structure Catalog where
  document : Sdl.Document
  /-- The file name of the document. -/
  schemaName : String := "schema.graphql"
  scope : Sdl.Scope := none
  /-- The tables in the order in which they were registered. -/
  tables : List Table := []
  bindings : List Binding := []
  /-- The access rules of fields, by type and field. -/
  fieldRules : List ((String × String) × List Access.Rule) := []
  deriving Repr

/-- How a type takes part in generated inputs. -/
inductive Category where
  | scalar
  | enum
  /-- A table. -/
  | model
  /-- An object type that is no table. -/
  | object
  /-- A type that no input can hold. -/
  | opaqueType
  deriving DecidableEq, Repr

/-- The word for a category. -/
def Category.word : Category → String
  | scalar => "scalar"
  | enum => "enum"
  | model => "model"
  | object => "object"
  | opaqueType => "opaque"

namespace Catalog

/-! ### Tables -/

/-- The table of a name. -/
def table? (c : Catalog) (name : String) : Option Table := c.tables.find? fun t => t.name = name

/-- The names of the tables. -/
def tableNames (c : Catalog) : List String := c.tables.map (·.name)

/-- Adds a table; a name can be taken only once. -/
def register (c : Catalog) (t : Table) : Except Fault Catalog :=
  if (c.table? t.name).isSome then .error (.repeatedTable t.name)
  else .ok { c with tables := c.tables ++ [t] }

/-- Replaces a table by one of the same name. -/
def putTable (c : Catalog) (t : Table) : Catalog :=
  { c with tables := c.tables.map fun other => if other.name = t.name then t else other }

/-! ### Bindings and rules of fields -/

/-- Adds a binding. -/
def bind (c : Catalog) (b : Binding) : Catalog := { c with bindings := c.bindings ++ [b] }

/-- The entries of field rules with one rule added. -/
def addRuleTo (place : String × String) (rule : Access.Rule) :
    List ((String × String) × List Access.Rule) → List ((String × String) × List Access.Rule)
  | [] => [(place, [rule])]
  | (other, rules) :: rest =>
    if other = place then (other, rules ++ [rule]) :: rest
    else (other, rules) :: addRuleTo place rule rest

/-- Adds an access rule of a field. -/
def addFieldRule (c : Catalog) (type field : String) (rule : Access.Rule) : Catalog :=
  { c with fieldRules := addRuleTo (type, field) rule c.fieldRules }

/-- The access rules of a field. -/
def rulesOfField (c : Catalog) (type field : String) : List Access.Rule :=
  (c.fieldRules.lookup (type, field)).getD []

/-- The field `field` of the type `type` is bound to a function. -/
def isFunction (c : Catalog) (type field : String) : Bool :=
  c.bindings.any fun
    | .function t f _ => t = type && f = field
    | .foreignInput .. => false

/-! ### Types -/

/-- The object type of a name. -/
def objectType? (c : Catalog) (name : String) : Option Sdl.ObjectType :=
  c.document.objects.find? fun o => o.name = name

/-- The document declares a type named `name` of one of the `kinds`. -/
def declares (c : Catalog) (kinds : List Sdl.DefinitionKind) (name : String) : Bool :=
  (c.document.namesOf kinds).contains name

/-- The category of a type; a type that is not declared counts as scalar. -/
def category (c : Catalog) (name : String) : Category :=
  if (c.table? name).isSome then .model
  else if c.declares [.enum] name then .enum
  else if c.declares [.object] name then .object
  else if c.declares [.interface, .union, .input] name then .opaqueType
  else .scalar

/-- The inputs by which scalars are filtered. -/
def scalarFilters : List (String × String) :=
  [("ID", "ModelIDInput"), ("String", "ModelStringInput"), ("Int", "ModelIntInput"),
    ("Float", "ModelFloatInput"), ("Boolean", "ModelBooleanInput"),
    ("AWSTimestamp", "ModelIntInput")]

/-- The input by which texts are filtered. -/
def textFilter : String := "ModelStringInput"

/-- The input by which fields of a type are filtered, if they can be. -/
def filterInput? (c : Catalog) (name : String) : Option String :=
  match c.category name with
  | .scalar => some ((scalarFilters.lookup name).getD textFilter)
  | .enum => some ("Model" ++ name ++ "Input")
  | _ => none

/-- Where the document is published. -/
def publishedLocation (c : Catalog) : String := "schema/" ++ c.schemaName

end Catalog

end SchemaLoom
