/-
The operations of a table.

Every table has operations that read one item, list items, and create, update and delete an item.
Their inputs are made from the fields that are stored (`storedFields`): a relation to one item is
given by the attribute behind it, a relation to many not at all.

If fields have unique values, updating and deleting take several steps, since they have to know
the item as it is stored (`steppedMutations`); else each is a single one (`directMutations`).
-/
import SchemaLoom.Catalog
import SchemaLoom.Report
import SchemaLoom.Resolver.Guard
import SchemaLoom.Resolver.Listing
import SchemaLoom.Resolver.Mutation
import SchemaLoom.Surface.Declaration
import SchemaLoom.Surface.Placement

namespace SchemaLoom.Surface

open Artifact Resolver

/-! ### Names -/

/-- The operation that reads an item. -/
def getName (t : Table) : String := "get" ++ t.name

/-- The operation that lists items. -/
def listName (t : Table) : String := "list" ++ t.name ++ "s"

/-- The operation that performs a mutation. -/
def mutationName (t : Table) (action : Access.Action) : String := action.text ++ t.name

/-- The mutations. -/
def mutations : List Access.Action := [.create, .update, .delete]

/-- The type of an answer that lists items of a type. -/
def connectionName (type : String) : String := "Model" ++ type ++ "Connection"

/-- The input that filters items of a type. -/
def filterName (type : String) : String := "Model" ++ type ++ "FilterInput"

/-- The input that states a condition on an item. -/
def conditionName (type : String) : String := "Model" ++ type ++ "ConditionInput"

/-- The input of a mutation. -/
def inputName (type : String) (action : Access.Action) : String :=
  Text.upperFirst action.text ++ type ++ "Input"

/-- The step that reads the item of a mutation. -/
def readStep (t : Table) : String := t.name ++ "ItemRead"

/-- The step that writes the item of a mutation. -/
def writeStep (t : Table) (action : Access.Action) : String := mutationName t action ++ "Write"

/-! ### Inputs -/

/-- The fields that are stored and not managed for a tenant. -/
def storedFields (t : Table) : List Sdl.Field :=
  t.fields.filter fun f =>
    !t.isComputed f.name && (t.tenancy.all fun tenancy => f.name ≠ tenancy.field)

/-- The shape of a field; of several fields of one name the first counts. -/
def fieldShape (t : Table) (f : Sdl.Field) : Except Fault Sdl.Shape :=
  shapeOf ((t.field? f.name).getD f).type

/-- The key of a new item is generated if it is not given. -/
def generatesId (t : Table) : Except Fault Bool := do
  return (← t.keyFieldType t.primaryKey.partition) = "ID"

/-- The shape of a field within the input of a mutation: tables and other objects are given by
inputs of their own, and what no input can hold is left out. -/
def inputShape? (c : Catalog) (action : Access.Action) (shape : Sdl.Shape) : Option Sdl.Shape :=
  match c.category shape.base with
  | .opaqueType => none
  | .model => some (shape.renamed (inputName shape.base action))
  | .object => some (shape.renamed (shape.base ++ "Input"))
  | .scalar | .enum => some shape

/-- The entry of a field of a filter. -/
def filterEntry (c : Catalog) (t : Table) (f : Sdl.Field) : Except Fault (Option Entry) := do
  match t.relation? f.name with
  | some r => return if r.toMany then none else some (.plain (t.myKey r) Catalog.textFilter)
  | none => return (c.filterInput? (← fieldShape t f).base).map (.plain f.name)

/-- The entries of a filter or condition: those of the fields, and filters joined by words. -/
def filterFields (c : Catalog) (t : Table) (name : String) : Except Fault (List Entry) := do
  let own ← (storedFields t).mapM (filterEntry c t)
  let implied := t.impliedForeignKeys.map fun key => Entry.plain key Catalog.textFilter
  return Entry.firstOfName (own.filterMap id ++ implied)
    ++ [.list "and" name, .list "or" name, .plain "not" name]

/-- The entry of a field of a new item. -/
def createEntry (c : Catalog) (t : Table) (isGenerated : Bool) (f : Sdl.Field) :
    Except Fault (Option Entry) := do
  let shape ← fieldShape t f
  match t.relation? f.name with
  | some r =>
    return if r.toMany then none
      else some ⟨t.myKey r, { base := "String", required := shape.required }⟩
  | none =>
    let isId := f.name = t.primaryKey.partition && isGenerated
    return (inputShape? c .create (if isId then shape.optional else shape)).map (⟨f.name, ·⟩)

/-- The entries of the input that creates an item. -/
def createFields (c : Catalog) (t : Table) : Except Fault (List Entry) := do
  let key := t.primaryKey
  let isGenerated ← generatesId t
  let own ← (storedFields t).mapM (createEntry c t isGenerated)
  let implied := t.impliedForeignKeys.map fun name => Entry.plain name "String"
  let keys ← key.fields.mapM fun name => do
    let base ← t.keyFieldType name
    return if name = key.partition && isGenerated then Entry.plain name base
      else Entry.needed name base
  return Entry.firstOfName (own.filterMap id ++ implied ++ keys)

/-- The entries of the fields of a key, which have to be given. -/
def keyEntriesOf (t : Table) : Except Fault (List Entry) :=
  t.primaryKey.fields.mapM fun name => return Entry.needed name (← t.keyFieldType name)

/-- The entry of a field of a changed item. -/
def updateEntry (c : Catalog) (t : Table) (f : Sdl.Field) : Except Fault (Option Entry) := do
  let shape ← fieldShape t f
  match t.relation? f.name with
  | some r => return if r.toMany then none else some (.plain (t.myKey r) "String")
  | none =>
    return if t.primaryKey.fields.contains f.name then some (.needed f.name shape.base)
      else (inputShape? c .update shape.optional).map (⟨f.name, ·⟩)

/-- The entries of the input that changes an item: only the key has to be given. -/
def updateFields (c : Catalog) (t : Table) : Except Fault (List Entry) := do
  let own ← (storedFields t).mapM (updateEntry c t)
  let implied := t.impliedForeignKeys.map fun name => Entry.plain name "String"
  return Entry.firstOfName (own.filterMap id ++ implied ++ (← keyEntriesOf t))

/-- The entries of the input that deletes an item. -/
def deleteFields (t : Table) : Except Fault (List Entry) := keyEntriesOf t

/-! ### Schema -/

/-- The directives that open an operation to the callers who may perform an action. -/
def openedTo (t : Table) (action : Access.Action) : List String :=
  Access.annotations (Table.providersOf (t.rulesFor action))

/-- The operation that performs a mutation. -/
def mutation (t : Table) (action : Access.Action) : Operation where
  name := mutationName t action
  arguments :=
    [.needed "input" (inputName t.name action), .plain "condition" (conditionName t.name)]
  type := { base := t.name }
  directives := openedTo t action

/-- The declarations of the operations of a table and of their inputs. -/
def operationDeclarations (c : Catalog) (t : Table) : Except Fault (List Declaration) := do
  let key ← keyEntriesOf t
  let condition := conditionName t.name
  let filter := filterName t.name
  let directives := openedTo t .read
  return [
    .extension "Query"
      [{ name := getName t, arguments := key, type := { base := t.name }, directives },
        { name := listName t
          arguments := [.plain "filter" filter, .plain "limit" "Int", .plain "nextToken" "String"]
          type := { base := connectionName t.name }
          directives }],
    .extension "Mutation" (mutations.map (mutation t)),
    .object (connectionName t.name) [.list "items" t.name, .plain "nextToken" "String"],
    .input condition (← filterFields c t condition),
    .input filter (← filterFields c t filter),
    .input (inputName t.name .create) (← createFields c t),
    .input (inputName t.name .update) (← updateFields c t),
    .input (inputName t.name .delete) (← deleteFields t)]

/-- The schema document of a table. -/
def operationSchema (c : Catalog) (t : Table) : Except Fault String :=
  renderDocument <$> operationDeclarations c t

/-- The edits of the published type of a table: who may see it, and its tenant. -/
def typeEdits (c : Catalog) (t : Table) : List Fragment :=
  let directives := Access.annotations (Table.providersOf t.rules)
  let access :=
    if directives.isEmpty then []
    else [Fragment.ofEdit c.publishedLocation (.addDirectives t.name none directives)]
  let tenant := t.tenancy.filter fun tenancy => (t.field? tenancy.field).isNone
  access ++ (tenant.map fun tenancy =>
    Fragment.ofEdit c.publishedLocation
      (.addField t.name (Entry.plain tenancy.field "String").render)).toList

/-! ### Resolvers -/

/-- The bindings of the operations of a table. -/
def operationBindings (t : Table) : List Tree :=
  let mutationBinding := fun (action : Access.Action) (steps : List String) =>
    if t.uniqueFields.isEmpty then binding t.name "Mutation" (mutationName t action) []
    else steppedBinding t.name "Mutation" (mutationName t action) steps
  [binding t.name "Query" (getName t) [], binding t.name "Query" (listName t) [],
    binding t.name "Mutation" (mutationName t .create) [],
    mutationBinding .update [readStep t, writeStep t .update, readStep t],
    mutationBinding .delete [readStep t, writeStep t .delete]]

/-- A template that a table has only if it is divided among tenants. -/
def forTenants (t : Table) (make : Tenancy → Template) : Template := t.tenancy.elim [] make

/-- Answers with an item that the caller may read. -/
def getResponse (t : Table) : Template :=
  forTenants t tenantItemGuard ++ itemGuard (t.rulesFor .read) ++ resultResponse

/-- Lists the items of a table, or those of the tenant. -/
def listTemplate (t : Table) : Template := forTenants t tenantList ++ listRequest

/-- Answers with the items that the caller may read. -/
def listResponse (t : Table) : Template := listGuard (t.rulesFor .read) ++ resultResponse

/-- Creates an item on behalf of a caller who may. -/
def createTemplate (t : Table) (isGenerated : Bool) : Template :=
  createGuard (t.rulesFor .create) ++ forTenants t tenantCreate
    ++ createRequest t.name t.primaryKey t.compositeKeys t.uniqueFields isGenerated

/-- Changes an item that the caller may change. -/
def updateTemplate (t : Table) : Template :=
  changeGuard (t.rulesFor .update) ++ forTenants t tenantCondition
    ++ updateRequest t.name t.primaryKey t.compositeKeys t.uniqueFields

/-- Deletes an item that the caller may delete. -/
def deleteTemplate (t : Table) : Template :=
  changeGuard (t.rulesFor .delete) ++ forTenants t tenantCondition
    ++ deleteRequest t.name t.primaryKey t.uniqueFields

/-- The templates of the mutations of a table without unique fields. -/
def directMutations (t : Table) (isGenerated : Bool) : List Fragment :=
  let one := fun (action : Access.Action) (request : Template) =>
    fieldTemplates "Mutation" (mutationName t action) request resultResponse
  one .create (createTemplate t isGenerated) ++ one .update (updateTemplate t)
    ++ one .delete (deleteTemplate t)

/-- The templates of the mutations of a table with unique fields. -/
def steppedMutations (t : Table) (isGenerated : Bool) : List Fragment :=
  let stepResponse := transactionResponse t.name "$ctx.result"
  let steps := [readStep t, writeStep t .update, writeStep t .delete]
  fieldTemplates "Mutation" (mutationName t .create) (createTemplate t isGenerated)
      (transactionResponse t.name "$ctx.args.input")
    ++ [Access.Action.update, .delete].flatMap (fun action =>
      fieldTemplates "Mutation" (mutationName t action) stepsRequest keptItemResponse)
    ++ templatePair (readStep t) (itemRequest t.primaryKey) itemResponse
    ++ templatePair (writeStep t .update) (updateTemplate t) stepResponse
    ++ templatePair (writeStep t .delete) (deleteTemplate t) stepResponse
    ++ [Fragment.ofTree (stepsLocation t.name)
      (.list (steps.map fun name => stepDeclaration name t.name))]

/-- The templates of the operations of a table. -/
def operationTemplates (t : Table) : Except Fault (List Fragment) := do
  let isGenerated ← generatesId t
  return fieldTemplates "Query" (getName t) (getRequest t.primaryKey) (getResponse t)
    ++ fieldTemplates "Query" (listName t) (listTemplate t) (listResponse t)
    ++ if t.uniqueFields.isEmpty then directMutations t isGenerated
      else steppedMutations t isGenerated

/-- The fragments of the operations of a table. -/
def operationFragments (c : Catalog) (t : Table) : Report Fault (List Fragment) := do
  let schema ← operationSchema c t
  let templates ← operationTemplates t
  Report.tell (.operationsEmitted t.name)
  return Fragment.ofText (schemaLocation t.name) schema :: typeEdits c t
    ++ Fragment.ofTree (bindingsLocation t.name) (.list (operationBindings t)) :: templates

end SchemaLoom.Surface
