/-
Schema documents.

A document is a sequence of definitions.  Definitions and extensions of one kind share a
structure and differ in the constructor that holds it.  Numbers are kept as they are written, and
quoted texts remember whether they were written as a block, so that printing a document loses
nothing but layout.

A `Definition` is identified by its kind and name, its `key`.  Edits and appended definitions
address others by it.
-/
import SchemaLoom.Sdl.Token

namespace SchemaLoom.Sdl

/-- The operations of an executable document. -/
inductive OperationKind where
  | query | mutation | subscription
  deriving DecidableEq, Repr

namespace OperationKind

/-- The keyword of an operation. -/
def keyword : OperationKind → String
  | query => "query"
  | mutation => "mutation"
  | subscription => "subscription"

/-- The operation that a keyword announces. -/
def ofKeyword? (s : String) : Option OperationKind :=
  [query, mutation, subscription].find? (·.keyword == s)

end OperationKind

/-- A value written in a document. -/
inductive Value where
  | variable (name : String)
  | int (digits : String)
  | float (digits : String)
  | string (text : String) (block : Bool)
  | boolean (truth : Bool)
  | null
  | enum (name : String)
  | list (items : List Value)
  | object (fields : List (String × Value))
  deriving Repr

/-- One occurrence of a directive, with its arguments in the order written. -/
structure Directive where
  name : String
  arguments : List (String × Value)
  deriving Repr

/-- A reference to a type. -/
inductive TypeRef where
  | named (name : String)
  | list (item : TypeRef)
  | nonNull (inner : TypeRef)
  deriving DecidableEq, Repr

/-- The description in front of a declaration. -/
structure Description where
  text : String
  block : Bool
  deriving DecidableEq, Repr

/-- A field of an input type, or an argument of an output field. -/
structure InputField where
  description : Option Description
  name : String
  type : TypeRef
  default : Option Value
  directives : List Directive
  deriving Repr

/-- A field of an object or interface type. -/
structure Field where
  description : Option Description
  name : String
  arguments : List InputField
  type : TypeRef
  directives : List Directive
  deriving Repr

/-- The body of an object or interface type. -/
structure ObjectType where
  description : Option Description
  name : String
  interfaces : List String
  directives : List Directive
  fields : List Field
  deriving Repr

/-- The body of an input type. -/
structure InputType where
  description : Option Description
  name : String
  directives : List Directive
  fields : List InputField
  deriving Repr

/-- The body of a scalar type. -/
structure ScalarType where
  description : Option Description
  name : String
  directives : List Directive
  deriving Repr

/-- The body of a union type. -/
structure UnionType where
  description : Option Description
  name : String
  directives : List Directive
  members : List String
  deriving Repr

/-- One value of an enum type. -/
structure EnumValue where
  description : Option Description
  name : String
  directives : List Directive
  deriving Repr

/-- The body of an enum type. -/
structure EnumType where
  description : Option Description
  name : String
  directives : List Directive
  values : List EnumValue
  deriving Repr

/-- The root operation types of a schema. -/
structure SchemaBody where
  description : Option Description
  directives : List Directive
  roots : List (OperationKind × String)
  deriving Repr

/-- The declaration of a directive. -/
structure DirectiveType where
  description : Option Description
  name : String
  arguments : List InputField
  repeatable : Bool
  locations : List String
  deriving Repr

/-- A variable of an operation. -/
structure VariableDefinition where
  description : Option Description
  name : String
  type : TypeRef
  default : Option Value
  directives : List Directive
  deriving Repr

/-- One entry of a selection set; an empty list of selections is an absent set. -/
inductive Selection where
  | field («alias» : Option String) (name : String) (arguments : List (String × Value))
      (directives : List Directive) (selections : List Selection)
  | spread (name : String) (directives : List Directive)
  | inline (condition : Option String) (directives : List Directive) (selections : List Selection)
  deriving Repr

/-- An operation of an executable document. -/
structure Operation where
  description : Option Description
  kind : OperationKind
  name : Option String
  parameters : List VariableDefinition
  directives : List Directive
  selections : List Selection
  deriving Repr

/-- A named selection of an executable document. -/
structure FragmentType where
  description : Option Description
  name : String
  condition : String
  directives : List Directive
  selections : List Selection
  deriving Repr

/-- A definition of a document. -/
inductive Definition where
  | operation (body : Operation)
  | fragment (body : FragmentType)
  | schema (body : SchemaBody)
  | scalar (body : ScalarType)
  | object (body : ObjectType)
  | interface (body : ObjectType)
  | union (body : UnionType)
  | enum (body : EnumType)
  | input (body : InputType)
  | directive (body : DirectiveType)
  | schemaExtension (body : SchemaBody)
  | scalarExtension (body : ScalarType)
  | objectExtension (body : ObjectType)
  | interfaceExtension (body : ObjectType)
  | unionExtension (body : UnionType)
  | enumExtension (body : EnumType)
  | inputExtension (body : InputType)
  deriving Repr

/-- The kinds of definitions. -/
inductive DefinitionKind where
  | operation | fragment | schema | scalar | object | interface | union | enum | input | directive
  | schemaExtension | scalarExtension | objectExtension | interfaceExtension | unionExtension
  | enumExtension | inputExtension
  deriving DecidableEq, Repr

namespace Definition

/-- The kind of a definition. -/
def kind : Definition → DefinitionKind
  | operation _ => .operation
  | fragment _ => .fragment
  | schema _ => .schema
  | scalar _ => .scalar
  | object _ => .object
  | interface _ => .interface
  | union _ => .union
  | enum _ => .enum
  | input _ => .input
  | directive _ => .directive
  | schemaExtension _ => .schemaExtension
  | scalarExtension _ => .scalarExtension
  | objectExtension _ => .objectExtension
  | interfaceExtension _ => .interfaceExtension
  | unionExtension _ => .unionExtension
  | enumExtension _ => .enumExtension
  | inputExtension _ => .inputExtension

/-- The name of a definition; schema blocks and anonymous operations have none. -/
def name? : Definition → Option String
  | operation body => body.name
  | fragment body => some body.name
  | schema _ | schemaExtension _ => none
  | scalar body | scalarExtension body => some body.name
  | object body | objectExtension body | interface body | interfaceExtension body => some body.name
  | union body | unionExtension body => some body.name
  | enum body | enumExtension body => some body.name
  | input body | inputExtension body => some body.name
  | directive body => some body.name

/-- What identifies a definition within a document. -/
def key (d : Definition) : DefinitionKind × Option String := (d.kind, d.name?)

end Definition

/-- A document. -/
structure Document where
  definitions : List Definition
  deriving Repr

namespace Document

/-- The document without definitions. -/
def empty : Document := ⟨[]⟩

/-- The object type definitions of a document, in order. -/
def objects (d : Document) : List ObjectType :=
  d.definitions.filterMap fun
    | .object body => some body
    | _ => none

/-- The names of the definitions of the given kinds, in order. -/
def namesOf (d : Document) (kinds : List DefinitionKind) : List String :=
  (d.definitions.filter fun definition => kinds.contains definition.kind).filterMap (·.name?)

end Document

end SchemaLoom.Sdl
