/-
Classifying relations.

When all tables are registered it can be told what each relation is (`kindOf`).  A relation to
many items has a counterpart in the related table, or implies a foreign key there, and an index
if it is named (`acceptRelation`).  A relation to one item belongs to a relation to many of the
same name, or stands alone (`belongsTo`).

Relations are looked at in the order of the document, and what one of them finds out or implies
is known to those that follow: `classifyAt` is one step, and `classifyAll` repeats it.
-/
import SchemaLoom.Catalog
import SchemaLoom.Report

namespace SchemaLoom

namespace Table

/-- Entries by field, with that of one field set. -/
def setEntry {α : Type} (field : String) (value : α) (entries : List (String × α)) :
    List (String × α) :=
  (field, value) :: entries.filter fun e => e.1 ≠ field

/-- Notes the primary key of the table that the relation of a field leads to. -/
def setTarget (t : Table) (field : String) (key : Key) : Table :=
  { t with targetKeys := setEntry field key t.targetKeys }

/-- Notes the foreign key behind the relation of a field to many items. -/
def setForeignKey (t : Table) (field foreignKey : String) : Table :=
  { t with foreignKeys := setEntry field foreignKey t.foreignKeys }

/-- Notes the kind of the relation at a position. -/
def setKind (t : Table) (position : Nat) (kind : RelationKind) : Table :=
  { t with relations := t.relations.modify position fun r => { r with kind := some kind } }

/-- Lets the end of a named relation that does not say its foreign key take over that of the other
end. -/
def adoptForeignKey (t : Table) (relation owner : String) (foreignKey : Option String) : Table :=
  match t.relations.findIdx? (isEnd relation owner false) with
  | none => t
  | some position =>
    { t with
      relations := t.relations.modify position fun r =>
        if r.foreignKey.isNone then { r with foreignKey } else r }

/-- What a relation to many items of another table makes of that table, and the foreign key
there. -/
def acceptRelation (target : Table) (owner : Table) (r : Relation) : Table × String :=
  let adopted :=
    (present r.name).bind fun name =>
      let target := target.adoptForeignKey name owner.name r.foreignKey
      (target.reciprocal? name owner.name false).map fun e => (target, target.foreignKey e)
  match adopted with
  | some result => result
  | none =>
    let foreignKey := owner.defaultForeignKey r
    let target := target.addImpliedForeignKey foreignKey
    match present r.name with
    | some name => (target.addImpliedIndex { name, partition := foreignKey }, foreignKey)
    | none => (target, foreignKey)

/-- The relation `r` of `t` to one item belongs to a relation of `target` to many. -/
def belongsTo (t target : Table) (r : Relation) : Bool :=
  (present r.name).any fun name => (target.reciprocal? name t.name true).isSome

end Table

namespace Catalog

/-- The positions of all relations: the table and the position there. -/
def relationPositions (c : Catalog) : List (String × Nat) :=
  c.tables.flatMap fun t => (List.range t.relations.length).map fun i => (t.name, i)

/-- A catalog in which the table that the relation of a field leads to is known. -/
def link (c : Catalog) (t : Table) (r : Relation) : Catalog :=
  match c.table? r.target with
  | none => c
  | some target => c.putTable (t.setTarget r.field target.primaryKey)

/-- A catalog in which the foreign key of a relation to many items is known. -/
def settleMany (c : Catalog) (t : Table) (r : Relation) : Catalog :=
  let (c, foreignKey) :=
    match c.table? r.target with
    | none => (c, t.defaultForeignKey r)
    | some target =>
      let (target, foreignKey) := target.acceptRelation t r
      (c.putTable target, foreignKey)
  match c.table? t.name with
  | none => c
  | some t => c.putTable (t.setForeignKey r.field foreignKey)

/-- The kind of a relation. -/
def kindOf (c : Catalog) (t : Table) (r : Relation) : RelationKind :=
  if r.toMany then .hasMany
  else if (c.table? r.target).any fun target => t.belongsTo target r then .belongsTo
  else .hasOne

/-- Classifies the relation at a position. -/
def classifyAt (c : Catalog) (position : String × Nat) : Catalog × List Notice :=
  match c.table? position.1 with
  | none => (c, [])
  | some t =>
    match t.relations[position.2]? with
    | none => (c, [])
    | some r =>
      let loose :=
        if (c.table? r.target).isNone then [Notice.looseRelation t.name r.field r.target] else []
      let kind := c.kindOf t r
      let c := c.putTable (t.setKind position.2 kind)
      let c := (c.table? t.name).elim c fun t => c.link t r
      let c :=
        if r.toMany then (c.table? t.name).elim c fun t => c.settleMany t r else c
      (c, loose ++ [.classified t.name r.field kind.text])

/-- Classifies relations one after the other. -/
def classifyAll (c : Catalog) : List (String × Nat) → Catalog × List Notice
  | [] => (c, [])
  | position :: rest =>
    let (c, notices) := c.classifyAt position
    let (c, further) := classifyAll c rest
    (c, notices ++ further)

/-- Classifies the relations of all tables. -/
def classify (c : Catalog) : Catalog × List Notice := c.classifyAll c.relationPositions

end Catalog

end SchemaLoom
