/-
Queries by key.

A secondary key that names a query operation gives rise to one (`queryOperation`).  It takes the
partition, a condition on the sort key if there is one, and what every listing takes.  The
condition on a composite sort key has inputs of its own (`compositeInputs`).
-/
import SchemaLoom.Surface.Operations

namespace SchemaLoom.Surface

open Artifact Resolver

/-- The query operation of a key. -/
def queryName (key : Key) : String := key.queryField.getD ""

/-- What the names of the inputs of a composite key start with. -/
def compositeStem (t : Table) (key : Key) : String :=
  "Model" ++ t.name ++ Text.upperFirst (key.name.getD "")

/-- The input that states a condition on a composite sort key. -/
def compositeConditionName (t : Table) (key : Key) : String :=
  compositeStem t key ++ "CompositeKeyConditionInput"

/-- The input that holds the parts of a composite sort key. -/
def compositeKeyName (t : Table) (key : Key) : String := compositeStem t key ++ "CompositeKeyInput"

/-- The inputs that state conditions on sort keys. -/
def keyConditions : List (String × String) :=
  [("ID", "ModelIDKeyConditionInput"), ("String", "ModelStringKeyConditionInput"),
    ("Int", "ModelIntKeyConditionInput"), ("Float", "ModelFloatKeyConditionInput"),
    ("AWSTimestamp", "ModelIntKeyConditionInput")]

/-- The type of the argument that restricts the sort key, if there is one. -/
def sortArgumentType? (t : Table) (key : Key) : Except Fault (Option String) := do
  match key.sortFields with
  | [] => return none
  | [field] =>
    return some
      ((keyConditions.lookup (← t.keyFieldType field)).getD "ModelStringKeyConditionInput")
  | _ => return some (compositeConditionName t key)

/-- The relations that a composite sort key can stand in to one value. -/
def compositeOperators : List String := ["eq", "le", "lt", "ge", "gt"]

/-- The inputs of a composite sort key. -/
def compositeInputs (t : Table) (key : Key) : Except Fault (List Declaration) := do
  let composite := compositeKeyName t key
  let parts ← key.sortFields.mapM fun name => return Entry.plain name (← t.keyFieldType name)
  return [
    .input (compositeConditionName t key)
      (compositeOperators.map (Entry.plain · composite)
        ++ [.list "between" composite, .plain "beginsWith" composite]),
    .input composite parts]

/-- The operation that lists items by a key. -/
def queryOperation (t : Table) (key : Key) : Except Fault Operation := do
  let partition := Entry.plain key.partition (← t.keyFieldType key.partition)
  let sort ← sortArgumentType? t key
  let sortEntry := sort.map (Entry.plain (key.sortArgument?.getD "") ·)
  return {
    name := queryName key
    arguments := partition :: sortEntry.toList
      ++ [.plain "sortDirection" "ModelSortDirection", .plain "filter" (filterName t.name),
        .plain "limit" "Int", .plain "nextToken" "String"]
    type := { base := connectionName t.name }
    directives := openedTo t .read }

/-- The declarations of a query by key. -/
def queryDeclarations (t : Table) (key : Key) : Except Fault (List Declaration) := do
  let operation ← queryOperation t key
  let inputs ← if key.isComposite then compositeInputs t key else pure []
  return .extension "Query" [operation] :: inputs

/-- The schema document of a query by key. -/
def querySchema (t : Table) (key : Key) : Except Fault String :=
  renderDocument <$> queryDeclarations t key

/-- Answers with the items of a query that the caller may read. -/
def queryResponse (t : Table) : Template := forTenants t tenantListGuard ++ listResponse t

/-- The fragments of a query by key. -/
def queryFragments (t : Table) (key : Key) : Except Fault (List Fragment) := do
  let name := queryName key
  let schema ← querySchema t key
  return [Fragment.ofText (schemaLocation (t.name ++ "." ++ name)) schema,
      Fragment.ofTree (bindingLocation t.name name) (.list [binding t.name "Query" name []])]
    ++ fieldTemplates "Query" name (keyQueryRequest key) (queryResponse t)

end SchemaLoom.Surface
