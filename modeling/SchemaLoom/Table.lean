/-
Tables.

A `Table` gathers what is declared on one object type: keys, relations, access rules, unique
fields and tenancy.  Relations of other tables may imply indexes and foreign keys on it.

What a relation resolves to is known only when all tables are; until then, and for a relation to
a type that is no table, defaults take its place (`targetKey?`).
-/
import SchemaLoom.Access.Rule
import SchemaLoom.Fault
import SchemaLoom.Sdl.Shape
import SchemaLoom.Table.Key
import SchemaLoom.Table.Relation
import SchemaLoom.Table.Tenancy

namespace SchemaLoom

/-- The shape of a type. -/
def shapeOf (type : Sdl.TypeRef) : Except Fault Sdl.Shape :=
  match Sdl.Shape.ofRef? type with
  | some s => .ok s
  | none => .error (.unsupportedType type)

/-- A name that is not empty. -/
def present (name : Option String) : Option String := name.filter (· ≠ "")

/-- A table. -/
structure Table where
  definition : Sdl.ObjectType
  /-- The kind of storage. -/
  provider : String := "DYNAMODB"
  keys : List Key := []
  relations : List Relation := []
  rules : List Access.Rule := []
  /-- The fields whose values are unique within the table. -/
  uniqueFields : List String := []
  tenancy : Option Tenancy := none
  /-- The indexes that relations of other tables need. -/
  impliedIndexes : List Index := []
  /-- The attributes that relations of other tables refer to. -/
  impliedForeignKeys : List String := []
  /-- The foreign keys behind relations to many items, by field. -/
  foreignKeys : List (String × String) := []
  /-- The primary keys of the tables that relations lead to, by field. -/
  targetKeys : List (String × Key) := []
  deriving Repr

namespace Table

/-- The name of a table. -/
def name (t : Table) : String := t.definition.name

/-! ### Gathering -/

/-- Adds a key; no two keys have one name, and at most one has none. -/
def addKey (t : Table) (key : Key) : Except Fault Table :=
  if t.keys.any fun k => k.name = key.name then .error (.repeatedKey t.name key.name)
  else .ok { t with keys := t.keys ++ [key] }

/-- Adds a relation. -/
def addRelation (t : Table) (r : Relation) : Table := { t with relations := t.relations ++ [r] }

/-- Adds an access rule. -/
def addRule (t : Table) (r : Access.Rule) : Table := { t with rules := t.rules ++ [r] }

/-- Notes that the values of a field are unique. -/
def addUnique (t : Table) (field : String) : Table :=
  if t.uniqueFields.contains field then t
  else { t with uniqueFields := t.uniqueFields ++ [field] }

/-- Adds an index that a relation of another table needs, unless there is one of its name. -/
def addImpliedIndex (t : Table) (i : Index) : Table :=
  if t.impliedIndexes.any fun other => other.name = i.name then t
  else { t with impliedIndexes := t.impliedIndexes ++ [i] }

/-- Adds an attribute that a relation of another table refers to. -/
def addImpliedForeignKey (t : Table) (field : String) : Table :=
  if t.impliedForeignKeys.contains field then t
  else { t with impliedForeignKeys := t.impliedForeignKeys ++ [field] }

/-! ### Fields -/

/-- The fields of a table. -/
def fields (t : Table) : List Sdl.Field := t.definition.fields

/-- The first field of a name. -/
def field? (t : Table) (name : String) : Option Sdl.Field := t.fields.find? fun f => f.name = name

/-- The shape of a field, if there is one of the name. -/
def fieldShape? (t : Table) (name : String) : Except Fault (Option Sdl.Shape) :=
  match t.field? name with
  | none => .ok none
  | some f => some <$> shapeOf f.type

/-- The base type of a field of a key; a field that is not declared has a type that its name
suggests. -/
def keyFieldType (t : Table) (name : String) : Except Fault String := do
  match ← t.fieldShape? name with
  | some shape => return shape.base
  | none => return if name = "id" then "ID" else "String"

/-- The directive that binds a field to a function. -/
def functionDirective : String := "function"

/-- The field `name` is computed by a function and not stored. -/
def isComputed (t : Table) (name : String) : Bool :=
  (t.field? name).any fun f => f.directives.any fun d => d.name = functionDirective

/-! ### Keys -/

/-- The primary key of a table that declares none. -/
def defaultKey : Key := { partition := "id" }

/-- The primary key. -/
def primaryKey (t : Table) : Key := (t.keys.find? (·.isPrimary)).getD defaultKey

/-- The keys besides the primary one. -/
def secondaryKeys (t : Table) : List Key := t.keys.filter fun k => !k.isPrimary

/-- The keys with a query operation of their own. -/
def queryKeys (t : Table) : List Key :=
  t.secondaryKeys.filter fun k => (present k.queryField).isSome

/-- The keys with several sort fields. -/
def compositeKeys (t : Table) : List Key := (t.primaryKey :: t.secondaryKeys).filter (·.isComposite)

/-! ### Relations -/

/-- The first relation of a field. -/
def relation? (t : Table) (field : String) : Option Relation :=
  t.relations.find? fun r => r.field = field

/-- The relations of a kind. -/
def relationsOf (t : Table) (kind : RelationKind) : List Relation :=
  t.relations.filter fun r => r.kind = some kind

/-- The relation `r` is an end of the named relation to the table `owner`. -/
def isEnd (relation owner : String) (toMany : Bool) (r : Relation) : Bool :=
  r.name = some relation && r.target = owner && r.toMany == toMany

/-- The end that a table has of a named relation to another one. -/
def reciprocal? (t : Table) (relation owner : String) (toMany : Bool) : Option Relation :=
  t.relations.find? (isEnd relation owner toMany)

/-- The attribute of the related items that refers to this table unless a relation says
otherwise. -/
def defaultForeignKey (t : Table) (r : Relation) : String :=
  (present r.foreignKey).getD (Text.lowerFirst r.target ++ t.name ++ "Id")

/-- The attribute that holds the key behind a relation: in the related items for a relation to many,
in the items of this table for a relation to one. -/
def foreignKey (t : Table) (r : Relation) : String :=
  if r.toMany then (present (t.foreignKeys.lookup r.field)).getD (t.defaultForeignKey r)
  else (present r.foreignKey).getD (Text.lowerFirst t.name ++ r.target ++ "Id")

/-- The primary key of the related table, if the relation leads to a table. -/
def targetKey? (t : Table) (r : Relation) : Option Key := t.targetKeys.lookup r.field

/-- The relation `r` leads to a table. -/
def isResolvable (t : Table) (r : Relation) : Bool := (t.targetKey? r).isSome

/-- The attribute of an item by which its related items are found. -/
def myKey (t : Table) (r : Relation) : String :=
  (present r.myKey).getD (if r.toMany then t.primaryKey.partition else t.foreignKey r)

/-- The attribute of the related items that matches it. -/
def yourKey (t : Table) (r : Relation) : String :=
  (present r.yourKey).getD
    (if r.toMany then t.foreignKey r else (t.targetKey? r).elim "id" (·.partition))

/-! ### Indexes -/

/-- The index of a key. -/
def keyIndex? (key : Key) : Option Index :=
  key.name.map fun name => { name, partition := key.partition, sort := key.sortKey? }

/-- The index of this end of a relation, which must have a name. -/
def relationIndex (t : Table) (r : Relation) : Except Fault Index :=
  match r.name with
  | some name => .ok { name, partition := t.foreignKey r, sort := r.sortField }
  | none => .error .unnamedIndex

/-- The index that is partitioned by tenant. -/
def tenancyIndex (t : Table) (tenancy : Tenancy) : Index :=
  { name := tenancy.indexName, partition := tenancy.field, sort := some t.primaryKey.partition }

/-- Indexes without those whose name occurred before. -/
def firstOfName : List Index → List Index
  | [] => []
  | i :: is => i :: (firstOfName is).filter fun other => other.name ≠ i.name

/-- The secondary indexes of a table, of each name the first. -/
def secondaryIndexes (t : Table) : Except Fault (List Index) := do
  let ends ← (t.relationsOf .belongsTo).mapM t.relationIndex
  return firstOfName <|
    t.secondaryKeys.filterMap keyIndex? ++ ends ++ t.impliedIndexes
      ++ (t.tenancy.map t.tenancyIndex).toList

/-- The attributes of the primary key and of every index. -/
def keyAttributes (t : Table) : Except Fault (List String) := do
  let indexes ← t.secondaryIndexes
  return Text.distinct (t.primaryKey.attributes ++ indexes.flatMap (·.attributes))

/-- The types of numbers. -/
def numericTypes : List String := ["Int", "Float", "AWSTimestamp"]

/-- The letter for the stored type of a key attribute: numbers are stored as such, anything else as
text. -/
def attributeType (t : Table) (name : String) : Except Fault String := do
  let shape ← t.fieldShape? name
  return if shape.any fun s => !s.isList && numericTypes.contains s.base then "N" else "S"

/-! ### Access -/

/-- The rules about an action. -/
def rulesFor (t : Table) (action : Access.Action) : List Access.Rule :=
  t.rules.filter (·.covers action)

/-- The providers of rules, each once. -/
def providersOf (rules : List Access.Rule) : List Access.Provider :=
  Text.distinct (rules.map (·.provider))

end Table

end SchemaLoom
