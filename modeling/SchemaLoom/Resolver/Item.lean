/-
Addressing one item.

An item is addressed by the attributes of the primary key.  Their values are taken from the
arguments of an operation (`keyValues`); several sort fields share one attribute, whose value
joins theirs (`joinedValue`).
-/
import SchemaLoom.Resolver.Template
import SchemaLoom.Table.Key

namespace SchemaLoom.Resolver

/-- The values of several fields of a source, joined as they are in the attribute they share. -/
def joinedValue (fields : List String) (source : String) : String :=
  keySeparator.intercalate (fields.map fun f => "$\x7b" ++ source ++ "." ++ f ++ "\x7d")

/-- The attributes of a key with expressions for their values. -/
def keyValues (key : Key) (source : String) : List (String × String) :=
  let value := fun (field : String) => "$" ++ source ++ "." ++ field
  (key.partition, value key.partition) ::
    match key.sortFields with
    | [] => []
    | [field] => [(field, value field)]
    | fields => [(keySeparator.intercalate fields, quoted (joinedValue fields source))]

/-- The attributes of a key with their values in stored form. -/
def keyEntries (key : Key) (source : String) : List String :=
  (keyValues key source).map fun e => named e.1 ("$util.dynamodb.toDynamoDBJson(" ++ e.2 ++ ")")

/-- The key of a request. -/
def keyMember (key : Key) (source : String) : Template := submap "key" (keyEntries key source)

/-- The key of one of several items that are written together. -/
def keyMap (key : Key) (source : String) : String :=
  inlineMap ((keyValues key source).map fun e => named e.1 e.2)

/-- Where a mutation takes the fields of its item from. -/
def inputSource : String := "ctx.args.input"

/-- Reads the item that the arguments address. -/
def getRequest (key : Key) : Template :=
  request "2017-02-28" "GetItem" [keyMember key "ctx.args"]

/-- Reads the item that the input of a mutation addresses, in its latest state. -/
def itemRequest (key : Key) : Template :=
  request "2018-05-29" "GetItem" [keyMember key inputSource, [named "consistentRead" "true"]]

/-- The result as it is. -/
def resultResponse : Template := ["$util.toJson($ctx.result)"]

/-- Keeps the item that was read for the steps that follow. -/
def itemResponse : Template :=
  reportError ++ put "$ctx.stash" "item" "$ctx.result" :: resultResponse

/-- The item that an earlier step kept. -/
def keptItemResponse : Template := ["$util.toJson($ctx.stash.item)"]

/-- The opening of several steps that asks for nothing. -/
def stepsRequest : Template := ["\x7b\x7d"]

/-- The attributes of a key have one value each. -/
theorem map_fst_keyValues (key : Key) (source : String) :
    (keyValues key source).map (·.1) = key.attributes := by
  rcases key with ⟨partition, sortFields, name, queryField⟩
  match sortFields with
  | [] => rfl
  | [field] => simp [keyValues, Key.attributes, Key.sortKey?]
  | _ :: _ :: _ => rfl

end SchemaLoom.Resolver
