/-
Fields that are resolved through other items.

A relation is resolved by a template that finds the related items (`relationRequest`).  Without a
name there is no index to find them by: such templates are a start for hand-written ones, so
files that exist are kept.  The field of a relation to many is published as one that lists items
(`listedField`).

An input type refers to a related item by its key (`foreignInputEdit`).
-/
import SchemaLoom.Surface.Operations

namespace SchemaLoom.Surface

open Artifact Resolver

/-- The published field of a relation to many items. -/
def listedField (r : Relation) : Operation where
  name := r.field
  arguments :=
    [.plain "filter" (filterName r.target), .plain "sortDirection" "ModelSortDirection",
      .plain "limit" "Int", .plain "nextToken" "String"]
  type := { base := connectionName r.target, required := r.shape.required }

/-- The value behind the relation `r` of `t` to one item addresses only a partition of the related
table. -/
def isPartialKey (t : Table) (r : Relation) : Bool :=
  (t.targetKey? r).any fun key => key.sortKey?.isSome && t.yourKey r = key.partition

/-- The request template of a relation. -/
def relationRequest (t : Table) (r : Relation) : Template :=
  if r.toMany then relatedItemsRequest (t.yourKey r) (t.myKey r) r.name
  else relatedItemRequest (t.yourKey r) (t.myKey r) (isPartialKey t r)

/-- The response template of a relation. -/
def relationResponse (t : Table) (r : Relation) : Template :=
  if r.toMany then resultResponse else relatedItemResponse (isPartialKey t r)

/-- The fragments of a relation. -/
def relationFragments (c : Catalog) (t : Table) (r : Relation) : List Fragment :=
  Fragment.ofTree (bindingLocation t.name r.field) (.list [binding r.target t.name r.field []])
    :: templatePair (t.name ++ "." ++ r.field) (relationRequest t r) (relationResponse t r)
      (!r.isCustom)
    ++ if r.toMany then
      [Fragment.ofEdit c.publishedLocation (.replaceField t.name r.field (listedField r).render)]
    else []

/-- The edit of a field of an input type that refers to a related item: the field of the key takes
its place, unless every input has that field. -/
def foreignInputEdit (type field foreignKey : String) (isCondition : Bool) : Sdl.Edit :=
  if foreignKey = "id" then .removeField type field
  else
    let base := if isCondition then Catalog.textFilter else "String"
    .replaceField type field (Entry.plain foreignKey base).render

/-- What owners are looked for in when a function computes a field of a type. -/
def functionRecord (type : String) : String :=
  if type = "Mutation" then "$ctx.args.input"
  else if type = "Query" then "$ctx.args"
  else "$ctx.source"

/-- The request template of a computed field. -/
def functionTemplate (c : Catalog) (type field : String) : Template :=
  fieldGuard (c.rulesOfField type field) (functionRecord type) ++ functionRequest type

/-- The fragments of a computed field. -/
def functionFragments (c : Catalog) (type field source : String) : List Fragment :=
  let directives := Access.annotations ((c.rulesOfField type field).map (·.provider))
  Fragment.ofTree (bindingLocation type field) (.list [steppedBinding source type field [source]])
    :: fieldTemplates type field (functionTemplate c type field) functionResponse
    ++ if directives.isEmpty then []
    else [Fragment.ofEdit c.publishedLocation (.addDirectives type (some field) directives)]

/-- The fragments of a binding. -/
def bindingFragments (c : Catalog) : Binding → List Fragment
  | .function type field source => functionFragments c type field source
  | .foreignInput type field foreignKey isCondition =>
    [Fragment.ofEdit c.publishedLocation (foreignInputEdit type field foreignKey isCondition)]

end SchemaLoom.Surface
