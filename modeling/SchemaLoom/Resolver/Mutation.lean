/-
Changing items.

A mutation writes one item under a condition on what is stored.  A field whose values have to be
unique is guarded by marker items: the key of a marker holds a value (`markerKey`), and the
marker refers to the item that has it (`markerReference`).  Item and markers are written in one
transaction, so that of two items with the same value the second fails.

A new item claims its markers, a changed one claims the new value and gives up the old one, and a
deleted one gives up its values.
-/
import SchemaLoom.Resolver.Item

namespace SchemaLoom.Resolver

/-! ### Conditions -/

/-- The attributes of a key with the placeholders that stand for them in conditions. -/
def placeholders (key : Key) : List (String × String) :=
  key.attributes.zipIdx.map fun a => ("#id" ++ toString a.2, a.1)

/-- Says of every attribute of a key that a function holds of it. -/
def keyCondition (key : Key) (function : String) : String :=
  " AND ".intercalate ((placeholders key).map fun p => function ++ "(" ++ p.1 ++ ")")

/-- What the placeholders of a key stand for. -/
def keyNames (key : Key) : Template :=
  submap "expressionNames" ((placeholders key).map fun p => named p.1 (quoted p.2))

/-- Narrows the condition by the one that the caller gives. -/
def givenCondition : Template :=
  whenever "$ctx.args.condition"
    [assign "$conditionFilterExpressions"
        "$util.parseJson($util.transform.toDynamoDBConditionExpression($ctx.args.condition))",
      put "$condition" "expression"
        "\"($condition.expression) AND $conditionFilterExpressions.expression\"",
      perform
        "$condition.expressionNames.putAll($conditionFilterExpressions.expressionNames)",
      assign "$conditionExpressionValues" (orElse "$condition.expressionValues" "\x7b\x7d"),
      perform
        "$conditionExpressionValues.putAll($conditionFilterExpressions.expressionValues)",
      assign "$condition.expressionValues" "$conditionExpressionValues"]

/-- Leaves out the values of a condition that has none. -/
def withoutEmptyValues : Template :=
  block "$condition.expressionValues && $condition.expressionValues.size() == 0"
    (mapping "  #set( $condition = "
      [[named "expression" "$condition.expression"],
        [named "expressionNames" "$condition.expressionNames"]]
      " )")

/-- The condition that the item exists, behind the condition that access rules set. -/
def existingCondition (key : Key) (more : List Template) : Template :=
  let isThere := keyCondition key "attribute_exists"
  branch "$authCondition && $authCondition.expression != \"\""
    (shifted <|
      assign "$condition" "$authCondition"
        :: put "$condition" "expression" (quoted ("($condition.expression) AND " ++ isThere))
        :: (placeholders key).map fun p =>
            put "$condition.expressionNames" p.1 (quoted p.2))
    (mapping "  #set( $condition = " ([named "expression" (quoted isThere)] :: keyNames key :: more)
      " )")

/-! ### Composite keys -/

/-- Sets the shared attribute of a composite key if all of its parts are given. -/
def compositeValue (key : Key) : Template :=
  let shared := shownName key.sortKey?
  remark ("Composite sort key " ++ shared)
    :: whenever (" && ".intercalate (key.sortFields.map fun f => isGiven (input f)))
      [putInput shared (quoted (joinedValue key.sortFields inputSource))]

/-! ### Markers of unique values -/

/-- The key of every marker starts with this word. -/
def markerWord : String := "__unique"

/-- The attribute of a marker that refers to the item whose value it holds. -/
def referenceAttribute : String := "__ref"

/-- What identifies the item of a mutation in a marker. -/
def markerReference (key : Key) : String := input key.partition

/-- The key of the marker of one value of a field. -/
def markerKey (type : String) (key : Key) (field value : String) : String :=
  let text := keySeparator.intercalate [markerWord, type, field, value]
  "$util.dynamodb.toMapValues("
    ++ inlineMap (named key.partition (quoted text)
        :: (key.sortKey?.map fun sortKey => named sortKey (quoted markerWord)).toList)
    ++ ")"

/-- Adds a write to the transaction. -/
def addWrite (ms : List Template) : Template := mapping "$util.qr($transactItems.add(" ms "))"

/-- The condition that a marker is free. -/
def freeMarker (key : Key) : Template :=
  mapping "\"condition\": "
    [[named "expression" (quoted "attribute_not_exists(#marker)")],
      [named "expressionNames" (inlineMap [named "#marker" (quoted key.partition)])]]
    ""

/-- The condition that a marker is free or belongs to the item of the mutation. -/
def ownMarker (key : Key) : Template :=
  mapping "\"condition\": "
    [[named "expression" (quoted "attribute_not_exists(#marker) OR #ref = :ref")],
      [named "expressionNames"
        (inlineMap [named "#marker" (quoted key.partition),
          named "#ref" (quoted referenceAttribute)])],
      [named "expressionValues" (inlineMap [named ":ref" (stored (markerReference key))])]]
    ""

/-- Claims the value that the input gives to a field. -/
def claimMarker (type : String) (key : Key) (field : String) (condition : Template) : Template :=
  addWrite
    [[named "table" (quoted type)], [named "operation" (quoted "PutItem")],
      [named "key" (markerKey type key field (input field))],
      [named "attributeValues"
        ("$util.dynamodb.toMapValues("
          ++ inlineMap [named referenceAttribute (markerReference key)] ++ ")")],
      condition]

/-- The stored value of a field. -/
def storedValue (field : String) : String := "$existing." ++ field

/-- Gives up the value that a field has in the stored item. -/
def releaseMarker (type : String) (key : Key) (field : String) : Template :=
  addWrite
    [[named "table" (quoted type)], [named "operation" (quoted "DeleteItem")],
      [named "key" (markerKey type key field (storedValue field))], ownMarker key]

/-- The remark before the lines about a field with unique values. -/
def uniqueRemark (field : String) : String := remark ("Unique constraint on " ++ field)

/-- Claims the value of a field of a new item. -/
def claimOnCreate (type : String) (key : Key) (field : String) : Template :=
  uniqueRemark field
    :: whenever (isGiven (input field)) (claimMarker type key field (freeMarker key))

/-- Claims a changed value and gives up the one it replaces. -/
def reassignMarker (type : String) (key : Key) (field : String) : Template :=
  uniqueRemark field
    :: whenever
      ("$ctx.args.input.containsKey(" ++ quoted field ++ ") && " ++ input field ++ " != "
        ++ storedValue field)
      (block (isGiven (input field)) (hanging (claimMarker type key field (ownMarker key)))
        ++ block (isGiven (storedValue field)) (hanging (releaseMarker type key field)))

/-- Gives up the value of a field of an item that is deleted. -/
def releaseOnDelete (type : String) (key : Key) (field : String) : Template :=
  uniqueRemark field :: whenever (isGiven (storedValue field)) (releaseMarker type key field)

/-! ### Transactions -/

/-- Starts a transaction. -/
def newTransaction : String := assign "$transactItems" "[]"

/-- Looks at the item that an earlier step kept. -/
def existingItem : String := assign "$existing" (orElse "$ctx.stash.item" "\x7b\x7d")

/-- Issues the writes of a transaction. -/
def transactionRequest : Template :=
  request "2018-05-29" "TransactWriteItems"
    [[named "transactItems" "$util.toJson($transactItems)"]]

/-- The write of the item itself within a transaction. -/
def itemWrite (type operation : String) (key : Key) (more : List Template) : Template :=
  addWrite <|
    [[named "table" (quoted type)], [named "operation" (quoted operation)],
      [named "key" ("$util.dynamodb.toMapValues(" ++ keyMap key inputSource ++ ")")]] ++ more

/-- Reports a value that is taken; the result of a transaction holds keys only, so the item is given
by another expression. -/
def transactionResponse (type result : String) : Template :=
  whenever "$ctx.error"
    (whenever "$ctx.result && $ctx.result.cancellationReasons"
        ["$util.error(\"A unique field of " ++ type
          ++ " is already taken\", \"UniqueConstraintViolation\", null, "
          ++ "$ctx.result.cancellationReasons)"]
      ++ ["$util.error($ctx.error.message, $ctx.error.type)"])
    ++ ["$util.toJson(" ++ result ++ ")"]

/-! ### Requests -/

/-- The stored condition of a request. -/
def conditionMember : Template := [named "condition" "$util.toJson($condition)"]

/-- Marks the input with its type. -/
def typeMark (type : String) : String := putInput "__typename" (quoted type)

/-- The moment of the request. -/
def now : String := "$util.time.nowISO8601()"

/-- Stores a new item.  With fields of unique values the item and their markers are one
transaction. -/
def createRequest (type : String) (key : Key) (compositeKeys : List Key)
    (uniqueFields : List String)
    (generatesId : Bool) : Template :=
  let write :=
    if uniqueFields.isEmpty then
      request "2017-02-28" "PutItem"
        [keyMember key inputSource,
          [named "attributeValues" "$util.dynamodb.toMapValuesJson($ctx.args.input)"],
          conditionMember]
    else
      newTransaction
        :: itemWrite type "PutItem" key
          [[named "attributeValues" "$util.dynamodb.toMapValues($ctx.args.input)"],
            [named "condition" "$condition"]]
        ++ uniqueFields.flatMap (claimOnCreate type key) ++ transactionRequest
  [remark "[Start] Prepare DynamoDB PutItem Request.", assign "$createdAt" now,
    remark "Automatically set the createdAt timestamp.",
    putInput "createdAt" (orElse (input "createdAt") "$createdAt"),
    remark "Automatically set the updatedAt timestamp.",
    putInput "updatedAt" (orElse (input "updatedAt") "$createdAt"), typeMark type]
    ++ (if generatesId then
        [putInput key.partition
          ("$util.defaultIfNullOrBlank(" ++ input key.partition ++ ", $util.autoId())")]
      else [])
    ++ compositeKeys.flatMap compositeValue
    ++ mapping "#set( $condition = "
      [[named "expression" (quoted (keyCondition key "attribute_not_exists"))], keyNames key] " )"
    ++ givenCondition ++ withoutEmptyValues ++ write
    ++ [remark "[End] Prepare DynamoDB PutItem Request."]

/-- Adds items to an expression, with commas between them. -/
def appendItems (item collection text : String) : Template :=
  forEach item collection
    (assign "$expression" (quoted ("$expression " ++ text))
      :: whenever "$foreach.hasNext()" [assign "$expression" (quoted "$expression,")])

/-- Says which attributes are set and which are removed: an absent value removes its attribute. -/
def updateExpression : Template :=
  let name := quoted "#$entryKeyAttributeName"
  [assign "$expNames" "\x7b\x7d", assign "$expValues" "\x7b\x7d", assign "$expSet" "\x7b\x7d",
    assign "$expRemove" "[]"]
    ++ forEach "$entry"
      "$util.map.copyAndRemoveAllKeys($ctx.args.input, $keyFields).entrySet()"
      (assign "$entryKeyAttributeName" "$entry.key.replaceAll(\"[^A-Za-z0-9_]\", \"_\")"
        :: choose "$util.isNull($entry.value)"
          [assign "$discard" ("$expRemove.add(" ++ name ++ ")"),
            put "$expNames" "#$entryKeyAttributeName" (quoted "$entry.key")]
          [put "$expSet" "#$entryKeyAttributeName" (quoted ":$entryKeyAttributeName"),
            put "$expNames" "#$entryKeyAttributeName" (quoted "$entry.key"),
            put "$expValues" ":$entryKeyAttributeName" (stored "$entry.value")])
    ++ [assign "$expression" (quoted "")]
    ++ whenever "!$expSet.isEmpty()"
      (assign "$expression" (quoted "SET")
        :: appendItems "$entry" "$expSet.entrySet()" "$entry.key = $entry.value")
    ++ whenever "!$expRemove.isEmpty()"
      (assign "$expression" (quoted "$expression REMOVE")
        :: appendItems "$entry" "$expRemove" "$entry")
    ++ [assign "$update" "\x7b\x7d", put "$update" "expression" (quoted "$expression")]
    ++ whenever "!$expNames.isEmpty()" [put "$update" "expressionNames" "$expNames"]
    ++ whenever "!$expValues.isEmpty()" [put "$update" "expressionValues" "$expValues"]

/-- Changes a stored item.  The fields and attributes of its key stay as they are. -/
def updateRequest (type : String) (key : Key) (compositeKeys : List Key)
    (uniqueFields : List String) : Template :=
  let fixed := Text.distinct (key.fields ++ key.attributes)
  let write :=
    if uniqueFields.isEmpty then
      request "2017-02-28" "UpdateItem"
        [keyMember key inputSource, [named "update" "$util.toJson($update)"], conditionMember]
    else
      newTransaction
        :: itemWrite type "UpdateItem" key
          [[named "update" "$update"], [named "condition" "$condition"]]
        ++ existingItem :: uniqueFields.flatMap (reassignMarker type key) ++ transactionRequest
  existingCondition key [[named "expressionValues" "\x7b\x7d"]]
    ++ [remark "Automatically set the updatedAt timestamp.",
      putInput "updatedAt" (orElse (input "updatedAt") now), typeMark type]
    ++ compositeKeys.flatMap compositeValue ++ givenCondition ++ withoutEmptyValues
    ++ [assign "$keyFields" ("[" ++ ", ".intercalate (fixed.map quoted) ++ "]")]
    ++ updateExpression ++ write

/-- Deletes a stored item. -/
def deleteRequest (type : String) (key : Key) (uniqueFields : List String) : Template :=
  let write :=
    if uniqueFields.isEmpty then
      request "2017-02-28" "DeleteItem" [keyMember key inputSource, conditionMember]
    else
      existingItem :: newTransaction
        :: itemWrite type "DeleteItem" key [[named "condition" "$condition"]]
        ++ uniqueFields.flatMap (releaseOnDelete type key) ++ transactionRequest
  existingCondition key [] ++ givenCondition ++ withoutEmptyValues ++ write

end SchemaLoom.Resolver
