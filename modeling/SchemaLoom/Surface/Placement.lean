/-
Where generated artifacts are placed.

The artifacts of a table carry its name, those of a single field the names of type and field.
Templates come in pairs for the request and the response of a resolver or of one of its steps
(`templatePair`).
-/
import SchemaLoom.Artifact.Fragment
import SchemaLoom.Resolver.Template

namespace SchemaLoom.Surface

open Artifact Resolver

/-! ### Locations -/

/-- Where the declaration of a table is placed. -/
def tableLocation (table : String) : String := "resources/dynamodb/" ++ table ++ ".resource.yml"

/-- Where the bindings of the operations of a table are placed. -/
def bindingsLocation (table : String) : String := "resources/appsync/" ++ table ++ ".mapping.yml"

/-- Where the binding of a field is placed. -/
def bindingLocation (type field : String) : String :=
  "resources/appsync/" ++ type ++ "." ++ field ++ ".mapping.yml"

/-- Where the steps of the resolvers of a table are declared. -/
def stepsLocation (table : String) : String := "resources/appsync/" ++ table ++ ".functions.yml"

/-- Where a generated schema document is placed. -/
def schemaLocation (name : String) : String := "schema/" ++ name ++ ".graphql"

/-- Where a template is placed. -/
def templateLocation (name phase : String) : String :=
  "mapping-templates/" ++ name ++ "." ++ phase ++ ".vtl"

/-! ### Bindings -/

/-- A binding of a field to the source of its data. -/
def binding (source type field : String) (more : List (String × Tree)) : Tree :=
  Tree.record ([("dataSource", .text source), ("type", .text type), ("field", .text field)] ++ more)

/-- A binding of a field that is resolved in steps. -/
def steppedBinding (source type field : String) (steps : List String) : Tree :=
  binding source type field
    [("kind", .text "PIPELINE"), ("functions", .list (steps.map Tree.text))]

/-- The declaration of one step. -/
def stepDeclaration (name source : String) : Tree :=
  Tree.record
    [("name", .text name), ("dataSource", .text source),
      ("request", .text (name ++ ".request.vtl")), ("response", .text (name ++ ".response.vtl"))]

/-! ### Templates -/

/-- The fragments of a pair of templates. -/
def templatePair (name : String) (request response : Template) (replaceable : Bool := true) :
    List Fragment :=
  [{ Fragment.ofText (templateLocation name "request") request.text with replaceable },
    { Fragment.ofText (templateLocation name "response") response.text with replaceable }]

/-- The fragments of the templates of a field. -/
def fieldTemplates (type field : String) (request response : Template) : List Fragment :=
  templatePair (type ++ "." ++ field) request response

end SchemaLoom.Surface
