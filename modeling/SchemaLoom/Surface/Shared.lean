/-
The declarations that all tables share.

Filters and conditions refer to common inputs, and to inputs that mirror the enums and object
types which the fields of tables use.  Those types are found by a search that starts from the
fields of tables and goes on through the fields of object types (`visit`); every type is visited
once.

The search ends since each object type that is met leaves less to be met (`unmet`).
-/
import SchemaLoom.Outcome
import SchemaLoom.Surface.Operations

namespace SchemaLoom.Surface

open Artifact

/-! ### Types in use -/

/-- The types that a search has met, in the order in which it met them. -/
structure TypesInUse where
  enums : List String := []
  objects : List String := []
  deriving DecidableEq, Repr

/-- A list with a member added at the end, unless it is there. -/
def addNew (name : String) (names : List String) : List String :=
  if names.contains name then names else names ++ [name]

/-- What an object type counts in a search: itself and its fields until it is met, nothing after. -/
def unmetSize (objects : List String) (o : Sdl.ObjectType) : Nat :=
  if o.name ∈ objects then 0 else o.fields.length + 1

/-- What the object types of a list count in a search. -/
def unmet (objects : List String) : List Sdl.ObjectType → Nat
  | [] => 0
  | o :: os => unmetSize objects o + unmet objects os

theorem unmetSize_append_le (objects : List String) (name : String) (o : Sdl.ObjectType) :
    unmetSize (objects ++ [name]) o ≤ unmetSize objects o := by
  unfold unmetSize
  by_cases met : o.name ∈ objects
  · simp [met]
  · simp only [met, List.mem_append, false_or, ↓reduceIte]
    split <;> omega

theorem unmet_append_le (objects : List String) (name : String) (os : List Sdl.ObjectType) :
    unmet (objects ++ [name]) os ≤ unmet objects os := by
  induction os with
  | nil => exact Nat.le_refl 0
  | cons o os ih => exact Nat.add_le_add (unmetSize_append_le objects name o) ih

/-- Meeting an object type leaves less to be met, even if its fields are counted again. -/
theorem unmet_append_lt {objects : List String} {o : Sdl.ObjectType} {os : List Sdl.ObjectType}
    (declared : o ∈ os) (new : o.name ∉ objects) :
    unmet (objects ++ [o.name]) os + o.fields.length < unmet objects os := by
  induction os with
  | nil => cases declared
  | cons other os ih =>
    simp only [unmet]
    rcases List.mem_cons.1 declared with rfl | declared
    · have := unmet_append_le objects o.name os
      have met : unmetSize (objects ++ [o.name]) o = 0 := by simp [unmetSize]
      have open' : unmetSize objects o = o.fields.length + 1 := by simp [unmetSize, new]
      omega
    · have := unmetSize_append_le objects o.name other
      have := ih declared
      omega

/-- The base types of fields. -/
def baseTypes (fields : List Sdl.Field) : Except Fault (List String) :=
  fields.mapM fun f => return (← shapeOf f.type).base

theorem length_baseTypes {fields : List Sdl.Field} {types : List String}
    (h : baseTypes fields = .ok types) : types.length = fields.length :=
  Outcome.length_of_mapM_eq_ok h

set_option linter.unusedVariables false in
/-- Visits types one after the other; the types of the fields of an object type are visited last. -/
def visit (c : Catalog) (pending : List String) (met : TypesInUse) : Except Fault TypesInUse :=
  match pending with
  | [] => .ok met
  | name :: rest =>
    match c.category name with
    | .enum => visit c rest { met with enums := addNew name met.enums }
    | .object =>
      if new : name ∈ met.objects then visit c rest met
      else
        match found : c.objectType? name with
        | none => visit c rest met
        | some o =>
          match listed : baseTypes o.fields with
          | .error fault => .error fault
          | .ok more => visit c (rest ++ more) { met with objects := met.objects ++ [name] }
    | _ => visit c rest met
termination_by unmet met.objects c.document.objects + pending.length
decreasing_by
  all_goals try simp
  have named : o.name = name := by simpa using List.find?_some found
  subst named
  have := unmet_append_lt (List.mem_of_find?_eq_some found) new
  have := length_baseTypes listed
  omega

/-- The fields of a table that are no relations. -/
def plainFields (t : Table) : List Sdl.Field := t.fields.filter fun f => (t.relation? f.name).isNone

/-- The enums and object types that the fields of tables use. -/
def typesInUse (c : Catalog) : Except Fault TypesInUse := do
  visit c (← baseTypes (c.tables.flatMap plainFields)) {}

/-! ### Mirrors -/

/-- The entry of a field of a mirrored type; tables and what no input can hold are left out. -/
def mirrorEntry (c : Catalog) (f : Sdl.Field) : Except Fault (Option Entry) := do
  let shape ← shapeOf f.type
  return match c.category shape.base with
  | .model | .opaqueType => none
  | .object => some ⟨f.name, shape.renamed (shape.base ++ "Input")⟩
  | .scalar | .enum => some ⟨f.name, shape⟩

/-- The entries of the input that mirrors an object type. -/
def mirrorFields (c : Catalog) (name : String) : Except Fault (List Entry) := do
  return (← ((c.objectType? name).elim [] (·.fields)).mapM (mirrorEntry c)).filterMap id

/-- The input that mirrors an object type, if it would have fields. -/
def mirror? (c : Catalog) (name : String) : Except Fault (Option Declaration) := do
  let fields ← mirrorFields c name
  return if fields.isEmpty then none else some (.input (name ++ "Input") fields)

/-- The filter of an enum. -/
def enumFilter (name : String) : Declaration :=
  .input ("Model" ++ name ++ "Input") [.plain "eq" name, .plain "ne" name]

/-! ### Common inputs -/

/-- Comparisons of values of a scalar. -/
def comparisonEntries (operators : List String) (scalar : String) : List Entry :=
  operators.map (Entry.plain · scalar) ++ [.list "between" scalar]

/-- The comparisons of filters. -/
def filterOperators : List String := ["ne", "eq", "le", "lt", "ge", "gt"]

/-- The comparisons of key conditions. -/
def keyOperators : List String := ["eq", "le", "lt", "ge", "gt"]

/-- The questions about an attribute itself. -/
def attributeEntries : List Entry :=
  [.plain "attributeExists" "Boolean", .plain "attributeType" "ModelAttributeTypes"]

/-- The filter of numbers of a scalar. -/
def numberFilter (scalar : String) : Declaration :=
  .input ("Model" ++ scalar ++ "Input") (comparisonEntries filterOperators scalar ++
    attributeEntries)

/-- The filter of texts of a scalar. -/
def textFilterOf (scalar : String) : Declaration :=
  .input ("Model" ++ scalar ++ "Input")
    (comparisonEntries filterOperators scalar
      ++ [.plain "contains" scalar, .plain "notContains" scalar, .plain "beginsWith" scalar]
      ++ attributeEntries ++ [.plain "size" "ModelSizeInput"])

/-- The condition on keys of a scalar. -/
def keyCondition (scalar : String) (more : List Entry) : Declaration :=
  .input ("Model" ++ scalar ++ "KeyConditionInput") (comparisonEntries keyOperators scalar ++ more)

/-- The types of attributes. -/
def attributeTypes : List String :=
  ["binary", "binarySet", "bool", "list", "map", "number", "numberSet", "string", "stringSet",
    "_null"]

/-- The declarations that do not depend on the document. -/
def commonDeclarations : List Declaration :=
  [.enum "ModelSortDirection" ["ASC", "DESC"], .enum "ModelAttributeTypes" attributeTypes,
    .input "ModelSizeInput" (comparisonEntries filterOperators "Int"), textFilterOf "String",
    textFilterOf "ID", numberFilter "Int", numberFilter "Float",
    .input "ModelBooleanInput" (.plain "ne" "Boolean" :: .plain "eq" "Boolean" :: attributeEntries),
    keyCondition "String" [.plain "beginsWith" "String"],
    keyCondition "ID" [.plain "beginsWith" "ID"], keyCondition "Int" [], keyCondition "Float" []]

/-- Where the shared declarations are placed. -/
def sharedLocation : String := "schema/root.graphql"

/-- The shared declarations; the root types are among them if the document does not declare them. -/
def sharedDeclarations (c : Catalog) : Except Fault (List Declaration) := do
  let roots := ["Query", "Mutation"].filter fun name => !c.declares [.object] name
  let used ← typesInUse c
  let mirrors ← used.objects.mapM (mirror? c)
  return roots.map .root ++ commonDeclarations ++ used.enums.map enumFilter ++ mirrors.filterMap id

/-- The shared schema document. -/
def sharedSchema (c : Catalog) : Except Fault String := renderDocument <$> sharedDeclarations c

/-- The fragment of the shared declarations; without tables nothing refers to them. -/
def sharedFragments (c : Catalog) : Except Fault (List Fragment) :=
  if c.tables.isEmpty then .ok []
  else (sharedSchema c).map fun schema => [Fragment.ofText sharedLocation schema]

end SchemaLoom.Surface
