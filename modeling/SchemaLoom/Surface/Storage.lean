/-
The declaration of a table to the storage.

The declaration starts with the primary key alone.  Indexes and the attributes that only they use
are added by edits, so that other fragments can extend the same declaration.

An attribute that no field declares counts as a text (`Table.attributeType`).
-/
import SchemaLoom.Surface.Placement
import SchemaLoom.Table

namespace SchemaLoom.Surface

open Artifact

/-- The name of a table among the resources of a stack. -/
def resourceName (t : Table) : String := t.name ++ "Table"

/-- The provisioned throughput of tables and indexes. -/
def throughput : Tree := Tree.record [("ReadCapacityUnits", .int 5), ("WriteCapacityUnits", .int 5)]

/-- The definition of an attribute. -/
def attributeDefinition (t : Table) (name : String) : Except Fault Tree := do
  let letter ← t.attributeType name
  return Tree.record [("AttributeName", .text name), ("AttributeType", .text letter)]

/-- The attributes of a key and what they are there for. -/
def keySchema (partition : String) (sort : Option String) : Tree :=
  let part := fun (role name : String) =>
    Tree.record [("AttributeName", .text name), ("KeyType", .text role)]
  .list (part "HASH" partition :: (sort.map (part "RANGE")).toList)

/-- The declaration of a table with its primary key. -/
def tableDeclaration (t : Table) : Except Fault Tree := do
  let key := t.primaryKey
  let attributes ← key.attributes.mapM (attributeDefinition t)
  let properties := Tree.record
    [("TableName", .text t.name), ("AttributeDefinitions", .list attributes),
      ("StreamSpecification", Tree.record [("StreamViewType", .text "NEW_AND_OLD_IMAGES")]),
      ("KeySchema", keySchema key.partition key.sortKey?), ("ProvisionedThroughput", throughput)]
  let resource := Tree.record [("Type", .text "AWS::DynamoDB::Table"), ("Properties", properties)]
  return Tree.record [("Resources", Tree.record [(resourceName t, resource)])]

/-- The declaration of an index. -/
def indexDeclaration (i : Index) : Tree :=
  Tree.record
    [("IndexName", .text i.name), ("KeySchema", keySchema i.partition i.sort),
      ("Projection", Tree.record [("ProjectionType", .text "ALL")]),
      ("ProvisionedThroughput", throughput)]

/-- The path of a property of a table. -/
def propertyPath (t : Table) (property : String) : String :=
  (String.singleton pathSeparator).intercalate
    ["Resources", resourceName t, "Properties", property]

/-- The fragments that declare a table. -/
def storageFragments (t : Table) : Except Fault (List Fragment) := do
  let location := tableLocation t.name
  let base ← tableDeclaration t
  let others := (← t.keyAttributes).filter fun name => !t.primaryKey.attributes.contains name
  let definitions ← others.mapM fun name => do
    let definition ← attributeDefinition t name
    return Fragment.ofPatch location
      (.replaceAt (propertyPath t "AttributeDefinitions") definition)
  let indexes := (← t.secondaryIndexes).map fun i =>
    Fragment.ofPatch location
      (.appendAt (propertyPath t "GlobalSecondaryIndexes") (indexDeclaration i))
  return Fragment.ofTree location base :: definitions ++ indexes

end SchemaLoom.Surface
