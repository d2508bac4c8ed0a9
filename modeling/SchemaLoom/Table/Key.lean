/-
Keys and secondary indexes of a table.

A `Key` names a partition field and any number of sort fields.  Several sort fields are stored
together in one attribute (`sortKey?`), so the key of an item never has more than two attributes.

An `Index` is given by its attributes, whatever fields these are made of.
-/
import SchemaLoom.Form
import SchemaLoom.Text.Case

namespace SchemaLoom

/-- What stands between the parts of a composite sort key. -/
def keySeparator : String := "#"

/-- A key; the key without a name is the primary one. -/
structure Key where
  partition : String
  sortFields : List String := []
  name : Option String := none
  /-- The query operation that reads items by this key. -/
  queryField : Option String := none
  deriving DecidableEq, Repr

namespace Key

/-- The fields of a key in order. -/
def fields (k : Key) : List String := k.partition :: k.sortFields

/-- The key `k` is the primary key of its table. -/
def isPrimary (k : Key) : Bool := k.name.isNone

/-- The attribute that holds the sort fields, if there are any. -/
def sortKey? (k : Key) : Option String :=
  if k.sortFields.isEmpty then none else some (keySeparator.intercalate k.sortFields)

/-- Sort fields glued to one name, each after the first capitalised. -/
def glued : List String → String
  | [] => ""
  | first :: rest => first ++ String.join (rest.map Text.upperFirst)

/-- The query argument that restricts the sort key, if there is one. -/
def sortArgument? (k : Key) : Option String :=
  if k.sortFields.isEmpty then none else some (glued k.sortFields)

/-- Several sort fields share an attribute. -/
def isComposite (k : Key) : Bool := 1 < k.sortFields.length

/-- The attributes of a key, the partition first. -/
def attributes (k : Key) : List String := k.partition :: k.sortKey?.toList

/-- Reads a key. -/
def read (t : Tree) : Form.Check Key := do
  let given ← Form.fieldsOf "KeySpec" t
  let names ← Form.needed given "fields" (Form.someOf Form.text)
  let name ← Form.defaulted given "name" none (Form.optional Form.text)
  let queryField ← Form.renamed given "queryField" "query_field" none (Form.optional Form.text)
  return { partition := names.headD "", sortFields := names.tail, name, queryField }

end Key

/-- A secondary index: a partition attribute and perhaps a sort attribute. -/
structure Index where
  name : String
  partition : String
  sort : Option String := none
  deriving DecidableEq, Repr

namespace Index

/-- The attributes of an index, the partition first. -/
def attributes (i : Index) : List String := i.partition :: i.sort.toList

/-- Reads an index. -/
def read (t : Tree) : Form.Check Index := do
  let given ← Form.fieldsOf "SecondaryIndex" t
  let name ← Form.needed given "name" Form.text
  let partition ← Form.needed given "partition_key" Form.text
  let sort ← Form.defaulted given "sort_key" none (Form.optional Form.text)
  return { name, partition, sort }

end Index

end SchemaLoom
