/-
Directives that act.

Every `Role` is played by the directive of one name, at sites of certain kinds (`Role.fits`).
Tables are registered first, in a `Phase` of their own, so that all other directives find the
tables of their types wherever they stand in the document.

One occurrence of a directive either takes effect as a whole or leaves the catalog as it was
(`step`).  A phase that meets a fault stops there, with the notices up to it (`run`).
-/
import SchemaLoom.Catalog
import SchemaLoom.Report

namespace SchemaLoom

/-- What a directive says about its site. -/
inductive Role where
  /-- A type is a table. -/
  | model
  | key
  /-- A field is a relation. -/
  | connection
  /-- A field is computed. -/
  | function
  | auth
  | unique
  | multiTenancy
  deriving DecidableEq, Repr

/-- The phases in which directives act. -/
inductive Phase where
  | register | collect
  deriving DecidableEq, Repr

namespace Role

/-- Every role. -/
def all : List Role := [model, key, connection, function, auth, unique, multiTenancy]

/-- The name of the directive that plays a role. -/
def name : Role → String
  | model => "model"
  | key => "key"
  | connection => "connection"
  | function => "function"
  | auth => "auth"
  | unique => "unique"
  | multiTenancy => "multiTenancy"

/-- The role of a directive. -/
def ofName? (name : String) : Option Role := all.find? fun r => r.name = name

/-- The phase in which a role is played. -/
def phase : Role → Phase
  | model => .register
  | _ => .collect

/-- The role can be played at the site. -/
def fits : Role → Sdl.Site → Bool
  | model, .type (.object _) | key, .type (.object _) | multiTenancy, .type (.object _) => true
  | auth, .type (.object _) | auth, .field _ (.output _) => true
  | function, .field _ (.output _) | unique, .field _ (.output _) => true
  | connection, .field _ _ => true
  | _, _ => false

end Role

namespace Catalog

/-- Notes a fault of the arguments of a directive. -/
def checked {α : Type} (role : Role) (site : Sdl.Site) (check : Form.Check α) : Except Fault α :=
  check.mapError (.badArguments role.name site.label)

/-- Changes the table of a site; a site without one is passed over. -/
def onTable (c : Catalog) (role : Role) (site : Sdl.Site) (change : Table → Except Fault Table) :
    Report Fault Catalog := do
  match c.table? site.typeName with
  | none =>
    Report.tell (.notATable role.name site.label site.typeName)
    return c
  | some t => return c.putTable (← change t)

/-! ### Single directives -/

/-- Registers a type as a table. -/
def registerType (c : Catalog) (definition : Sdl.ObjectType) : Report Fault Catalog := do
  let c ← c.register { definition }
  Report.tell (.registered definition.name)
  return c

/-- The relation that a field of a type declares. -/
def declareRelation (site : Sdl.Site) (field : Sdl.DeclaredField) (shape : Sdl.Shape)
    (args : Form.Fields) (t : Table) : Except Fault Table :=
  return t.addRelation (← checked .connection site (Relation.declared field.name shape args))

/-- The ending of the names of input types. -/
def inputEnding : String := "Input"

/-- A name without the ending of input types. -/
def withoutInputEnding (name : String) : String :=
  let cs := name.toList.reverse
  let ending := inputEnding.toList.reverse
  if ending.isPrefixOf cs then String.ofList (cs.drop ending.length).reverse else name

/-- The text of an argument; nothing, zero and whatever is empty stand for no text. -/
def givenText (t : Tree) : Option String :=
  let isVacant :=
    match t with
    | .null | .bool false | .int 0 | .text "" | .list [] | .map [] => true
    | .float x => x.sameValue (.zero false)
    | _ => false
  if isVacant then none else some t.display

/-- The binding of a relation of an input type: the argument for the foreign key, or a name made
of the two ends of the relation. -/
def foreignInput (body : Sdl.InputType) (field : Sdl.InputField) (base : String)
    (args : Form.Fields) : Binding :=
  let owner := (present (Sdl.Declaration.input body).boundTo?).getD body.name
  let given := fun (name : String) => (Tree.lookup (.text name) args).bind givenText
  let default := Text.lowerFirst owner ++ withoutInputEnding base ++ "Id"
  let foreignKey := ((given "foreignKey").or (given "myKey")).getD default
  let binding := body.directives.find? fun d => d.name = Sdl.Declaration.bindingDirective
  let isCondition :=
    match binding.bind (·.argument? "condition") with
    | some (.bool truth) => truth
    | _ => false
  .foreignInput body.name field.name foreignKey isCondition

/-- The binding of a field to a function. -/
def functionBinding (site : Sdl.Site) (field : Sdl.Field) (args : Form.Fields) :
    Except Fault Binding :=
  match present ((Tree.lookup (.text "name") args).bind (·.text?)) with
  | some source => .ok (.function site.typeName field.name source)
  | none => .error (.functionUnnamed site.label)

/-- The access rule that a directive declares. -/
def declareRule (site : Sdl.Site) (args : Form.Fields) : Except Fault Access.Rule :=
  (Access.Rule.declared args).mapError (.badRule site.label)

/-! ### Occurrences -/

/-- Lets a directive act at a site. -/
def act (c : Catalog) (role : Role) (site : Sdl.Site) (args : Form.Fields) :
    Report Fault Catalog := do
  match role, site with
  | .model, .type (.object body) => c.registerType body
  | .key, _ =>
    c.onTable role site fun t => do t.addKey (← checked role site (Key.read (.map args)))
  | .connection, .field (.input body) (.input field) =>
    let shape ← shapeOf field.type
    return c.bind (foreignInput body field shape.base args)
  | .connection, .field _ field =>
    let shape ← shapeOf field.type
    c.onTable role site (declareRelation site field shape args)
  | .function, .field _ (.output field) =>
    return c.bind (← functionBinding site field args)
  | .auth, _ =>
    let rule ← declareRule site args
    match site with
    | .field _ field => return c.addFieldRule site.typeName field.name rule
    | .type _ => c.onTable role site fun t => .ok (t.addRule rule)
  | .unique, .field _ field => c.onTable role site fun t => .ok (t.addUnique field.name)
  | .multiTenancy, _ =>
    c.onTable role site fun t => do
      return { t with tenancy := some (← checked role site (Tenancy.read (.map args))) }
  | _, _ => return c

/-- One occurrence of a directive. -/
abbrev Occurrence := Sdl.Site × Sdl.Directive

/-- The occurrences of directives in a document, in order. -/
def occurrences (doc : Sdl.Document) : List Occurrence :=
  doc.sites.flatMap fun site => site.directives.map fun d => (site, d)

/-- The role that an occurrence plays in a phase, if it plays one. -/
def roleOf? (scope : Sdl.Scope) (phase : Phase) (o : Occurrence) : Option Role :=
  (Role.ofName? o.2.name).filter fun role =>
    role.phase = phase && role.fits o.1 && o.1.inScope scope

/-- Lets an occurrence act if it plays a role in the phase. -/
def step (phase : Phase) (c : Catalog) (o : Occurrence) : Report Fault Catalog := do
  match roleOf? c.scope phase o with
  | none => return c
  | some role =>
    Report.tell (.applying o.2.name o.1.label)
    c.act role o.1 o.2.entries

/-! ### Phases -/

/-- How far a phase came. -/
structure Progress where
  catalog : Catalog
  fault : Option Fault
  notices : List Notice

/-- Lets occurrences act one after the other, up to the first that is at fault. -/
def run (phase : Phase) (c : Catalog) : List Occurrence → Progress
  | [] => ⟨c, none, []⟩
  | o :: rest =>
    let report := step phase c o
    match report.outcome with
    | .error fault => ⟨c, some fault, report.notices⟩
    | .ok c =>
      let further := run phase c rest
      { further with notices := report.notices ++ further.notices }

/-- Lets the directives of the document act that act in a phase. -/
def dispatch (c : Catalog) (phase : Phase) : Progress := run phase c (occurrences c.document)

/-- What came of a phase, without the catalog of a phase that failed. -/
def Progress.report (p : Progress) : Report Fault Catalog :=
  ⟨p.fault.elim (.ok p.catalog) .error, p.notices⟩

end Catalog

end SchemaLoom
