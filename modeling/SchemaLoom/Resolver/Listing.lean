/-
Reading many items.

A listing goes through a table or, if an expression has been prepared, through what the
expression selects (`listRequest`).  A key query selects the items of one partition of an index,
and perhaps those whose sort key stands in a relation to given values (`keyQueryRequest`).

A relation is resolved by reading the one item that a value addresses, or by listing the items of
an index (`relatedItemRequest`, `relatedItemsRequest`).
-/
import SchemaLoom.Resolver.Item

namespace SchemaLoom.Resolver

/-- The greatest number of items of one answer. -/
def limitLine : String := assign "$limit" (orElse (argument "limit") "100")

/-- The condition that items are asked for in descending order. -/
def isDescending : String :=
  isGiven (argument "sortDirection") ++ " && " ++ argument "sortDirection" ++ " == \"DESC\""

/-- The filter that the caller gives, as a map. -/
def parsedFilter : String :=
  "$util.parseJson(\"$util.transform.toDynamoDBFilterExpression($ctx.args.filter)\")"

/-- Sets the order in which a request goes through an index. -/
def directionLines (requestVariable : String) : Template :=
  choose isDescending [assign (requestVariable ++ ".scanIndexForward") "false"]
    [assign (requestVariable ++ ".scanIndexForward") "true"]

/-- Lists the items of a table. -/
def listRequest : Template :=
  limitLine
    :: mapping "#set( $ListRequest = "
      [[named "version" (quoted "2017-02-28")], [named "limit" "$limit"]] " )"
    ++ whenever (argument "nextToken") [assign "$ListRequest.nextToken" (argument "nextToken")]
    ++ whenever (argument "filter") [assign "$ListRequest.filter" parsedFilter]
    ++ choose
      ("!$util.isNull($modelQueryExpression) && "
        ++ "!$util.isNullOrEmpty($modelQueryExpression.expression)")
      (put "$ListRequest" "operation" (quoted "Query")
        :: put "$ListRequest" "query" "$modelQueryExpression"
        :: whenever (isGiven "$modelQueryIndex")
          [put "$ListRequest" "index" "$modelQueryIndex"]
        ++ directionLines "$ListRequest")
      [put "$ListRequest" "operation" (quoted "Scan")]
    ++ ["$util.toJson($ListRequest)"]

/-! ### Key queries -/

/-- The relations to a single value: the field of the argument and the sign. -/
def comparisons : List (String × String) :=
  [("eq", "="), ("lt", "<"), ("le", "<="), ("gt", ">"), ("ge", ">=")]

/-- Adds a condition to the expression that selects items. -/
def narrow (condition : String) : String :=
  assign "$modelQueryExpression.expression"
    (quoted ("$modelQueryExpression.expression AND " ++ condition))

/-- Says which attribute the sort key is. -/
def sortKeyName (sortKey : String) : String :=
  put "$modelQueryExpression.expressionNames" "#sortKey" (quoted sortKey)

/-- Gives a value that the sort key is compared with. -/
def sortKeyValue (placeholder value : String) : String :=
  put "$modelQueryExpression.expressionValues" placeholder value

/-- Lines that count if a field of the sort argument is given. -/
def whenSortGiven (sortArgument field : String) (body : Template) : Template :=
  whenever (isGiven (argument sortArgument) ++ " && " ++
    isGiven (argument sortArgument ++ "." ++ field))
    body

/-- The condition that the sort key starts with a value. -/
def beginsWith : String := "begins_with(#sortKey, :sortKey)"

/-- The condition that the sort key lies between two values. -/
def between : String := "#sortKey BETWEEN :sortKey0 AND :sortKey1"

/-- Conditions on a sort key of one field. -/
def simpleSortLines (sortKey sortArgument : String) : Template :=
  let value := fun (path : String) => stored (argument sortArgument ++ "." ++ path)
  whenSortGiven sortArgument "beginsWith"
      [narrow beginsWith, sortKeyName sortKey, sortKeyValue ":sortKey" (value "beginsWith")]
    ++ whenSortGiven sortArgument "between"
      [narrow between, sortKeyName sortKey, sortKeyValue ":sortKey0" (value "between[0]"),
        sortKeyValue ":sortKey1" (value "between[1]")]
    ++ comparisons.flatMap fun (field, sign) =>
      whenSortGiven sortArgument field
        [narrow ("#sortKey " ++ sign ++ " :sortKey"), sortKeyName sortKey,
          sortKeyValue ":sortKey" (value field)]

/-- Joins the parts of a composite sort key that are given in a field of the sort argument. -/
def joinParts (sortArgument field : String) (parts : List String) (target : String) : Template :=
  let source := argument sortArgument ++ "." ++ field
  let part := fun (lead name : String) =>
    "#if( " ++ isGiven (source ++ "." ++ name) ++ " ) "
      ++ assign target (quoted (lead ++ source ++ "." ++ name)) ++ " #end"
  assign target (quoted "") ::
    match parts with
    | [] => []
    | first :: rest => part "" first :: rest.map (part (target ++ keySeparator))

/-- A text as a stored value. -/
def storedText (expression : String) : String := inlineMap [named "S" (quoted expression)]

/-- Conditions on a sort key of several fields. -/
def compositeSortLines (sortKey sortArgument : String) (parts : List String) : Template :=
  whenSortGiven sortArgument "beginsWith"
      (joinParts sortArgument "beginsWith" parts "$sortKeyValue"
        ++ [narrow beginsWith, sortKeyName sortKey,
          sortKeyValue ":sortKey" (storedText "$sortKeyValue")])
    ++ whenSortGiven sortArgument "between"
      (whenever (argument sortArgument ++ ".between.size() != 2")
          ["$util.error(\"Argument " ++ sortArgument ++ ".between expects exactly 2 elements.\")"]
        ++ joinParts sortArgument "between[0]" parts "$sortKeyValue0"
        ++ joinParts sortArgument "between[1]" parts "$sortKeyValue1"
        ++ [narrow between, sortKeyName sortKey,
          sortKeyValue ":sortKey0" (storedText "$sortKeyValue0"),
          sortKeyValue ":sortKey1" (storedText "$sortKeyValue1")])
    ++ comparisons.flatMap fun (field, sign) =>
      whenSortGiven sortArgument field
        (joinParts sortArgument field parts "$sortKeyValue"
          ++ [narrow ("#sortKey " ++ sign ++ " :sortKey"), sortKeyName sortKey,
            sortKeyValue ":sortKey" (storedText "$sortKeyValue")])

/-- Conditions on the sort key of a key. -/
def sortLines (key : Key) (sortArgument : String) : Template :=
  match key.sortFields with
  | [field] => simpleSortLines field sortArgument
  | fields => compositeSortLines (keySeparator.intercalate fields) sortArgument fields

/-- A sort argument makes sense only together with the partition. -/
def partitionNeeded (partition sortArgument : String) : Template :=
  whenever (isGiven (argument sortArgument) ++ " && $util.isNull(" ++ argument partition ++ ")")
    ["$util.error(\"When providing argument '" ++ sortArgument
      ++ "' you must also provide argument '" ++ partition ++ "'\", \"InvalidArgumentsError\")"]

/-- Selects the items of the given partition. -/
def partitionLines (partition : String) : Template :=
  whenever (isGiven (argument partition))
    (assign "$modelQueryExpression.expression" (quoted ("#" ++ partition ++ " = :" ++ partition))
      :: mapping "#set( $modelQueryExpression.expressionNames = "
        [[named ("#" ++ partition) (quoted partition)]] " )"
      ++ mapping "#set( $modelQueryExpression.expressionValues = "
        [[named (":" ++ partition) (stored (argument partition))]] " )")

/-- Lists the items that a key selects. -/
def keyQueryRequest (key : Key) : Template :=
  let inlineSet := fun (name value : String) =>
    "#if( " ++ argument name ++ " ) " ++ assign ("$QueryRequest." ++ name) value ++ " #end"
  [remark "[Start] Set query expression for @key", assign "$modelQueryExpression" "\x7b\x7d"]
    ++ key.sortArgument?.elim [] (partitionNeeded key.partition)
    ++ partitionLines key.partition
    ++ (key.sortArgument?.elim [] fun sortArgument =>
      remark "[Start] Applying Key Condition" :: sortLines key sortArgument
        ++ [remark "[End] Applying Key Condition"])
    ++ [remark "[End] Set query expression for @key", limitLine]
    ++ mapping "#set( $QueryRequest = "
      [[named "version" (quoted "2017-02-28")], [named "operation" (quoted "Query")],
        [named "limit" "$limit"], [named "query" "$modelQueryExpression"],
        [named "index" (quoted (shownName key.name))]] " )"
    ++ directionLines "$QueryRequest"
    ++ [inlineSet "nextToken" (argument "nextToken"), inlineSet "filter" parsedFilter,
      "$util.toJson($QueryRequest)"]

/-! ### Relations -/

/-- The condition that an attribute has the value of a field of the source item. -/
def matching (yours mine : String) : List Template :=
  [[named "expression" (quoted "#connectionAttribute = :connectionAttribute")],
    submap "expressionNames" [named "#connectionAttribute" (quoted yours)],
    submap "expressionValues" [named ":connectionAttribute" (stored ("$ctx.source." ++ mine))]]

/-- Reads the related item.  If the value addresses only a partition of the related table, the first
item of the partition is read. -/
def relatedItemRequest (yours mine : String) (isPartial : Bool) : Template :=
  whenever ("$util.isNull($ctx.source." ++ mine ++ ")") ["#return"]
    ++ if isPartial then
      request "2018-05-29" "Query"
        [mapping "\"query\": " (matching yours mine) "", [named "limit" "1"]]
    else
      request "2018-05-29" "GetItem"
        [submap "key" [named yours ("$util.dynamodb.toDynamoDBJson($ctx.source." ++ mine ++ ")")]]

/-- The related item. -/
def relatedItemResponse (isPartial : Bool) : Template :=
  reportError
    ++ if isPartial then
      whenever "$ctx.result.items.isEmpty()" ["#return"] ++ ["$util.toJson($ctx.result.items[0])"]
    else resultResponse

/-- Lists the related items by an index of the related table; without the name of one, by its
primary key. -/
def relatedItemsRequest (yours mine : String) (index : Option String) : Template :=
  let either := fun (condition body otherwise : String) =>
    "#if( " ++ condition ++ " ) " ++ body ++ " #else " ++ otherwise ++ " #end"
  let isDescending :=
    argument "sortDirection" ++ " && " ++ argument "sortDirection" ++ " == \"DESC\""
  limitLine
    :: mapping "#set( $query = " (matching yours mine) " )"
    ++ request "2017-02-28" "Query"
      ([[named "query" "$util.toJson($query)"],
        [named "scanIndexForward" (either isDescending "false" "true")],
        [named "filter"
          (either (argument "filter")
            "$util.transform.toDynamoDBFilterExpression($ctx.args.filter)" "null")],
        [named "limit" "$limit"],
        [named "nextToken"
          (either (argument "nextToken") "$util.toJson($ctx.args.nextToken)" "null")]]
        ++ ((index.filter (· ≠ "")).map fun name => [named "index" (quoted name)]).toList)

/-! ### Functions -/

/-- Passes an operation on to a function, which learns the type and the field it stands for. -/
def functionRequest (type : String) : Template :=
  put "$ctx.stash" "typeName" (quoted type)
    :: put "$ctx.stash" "fieldName" "$ctx.info.fieldName"
    :: if type = "Mutation" then
      putInput "updatedAt" (orElse (input "updatedAt") "$util.time.nowISO8601()")
        :: mapping "" [[named "value" "$util.toJson($ctx.args.input)"]] ""
    else stepsRequest

/-- The answer of a function. -/
def functionResponse : Template := ["$util.toJson($ctx.prev.result)"]

end SchemaLoom.Resolver
