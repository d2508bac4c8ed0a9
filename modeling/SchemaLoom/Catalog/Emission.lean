/-
Emitting fragments.

The fragments of tables come first, in the order of the tables, then those of bindings of single
fields, the shared declarations, and the edits that strip the published schema (`emit`).  If
anything edits the published schema, it starts from the document as it was written (`seed`).
-/
import SchemaLoom.Surface.KeyQuery
import SchemaLoom.Surface.Published
import SchemaLoom.Surface.RelationField
import SchemaLoom.Surface.Shared
import SchemaLoom.Surface.Storage

namespace SchemaLoom

open Artifact Surface

/-- What a table gives rise to. -/
inductive TablePart where
  | storage
  | operations
  | query (key : Key)
  | relation (r : Relation)
  deriving DecidableEq, Repr

/-- The parts of a table, in the order in which they are emitted. -/
def Table.parts (t : Table) : List TablePart :=
  [.storage, .operations] ++ t.queryKeys.map .query
    ++ (t.relations.filter (t.isResolvable ·)).map .relation

namespace Catalog

/-- The fragments of one part of a table. -/
def partFragments (c : Catalog) (t : Table) : TablePart → Report Fault (List Fragment)
  | .storage => storageFragments t
  | .operations => operationFragments c t
  | .query key => queryFragments t key
  | .relation r => return relationFragments c t r

/-- The fragments of a table. -/
def tableFragments (c : Catalog) (t : Table) : Report Fault (List Fragment) :=
  List.flatten <$> t.parts.mapM (c.partFragments t)

/-- The fragment that starts the published schema with the document as it was written. -/
def seed (c : Catalog) : Fragment := .ofText c.publishedLocation c.document.render

/-- All fragments of a catalog. -/
def emit (c : Catalog) : Report Fault (List Fragment) := do
  let tables ← c.tables.mapM c.tableFragments
  let shared ← sharedFragments c
  let fragments :=
    tables.flatten ++ c.bindings.flatMap (bindingFragments c) ++ shared ++ stripFragments c
  return if fragments.any fun f => f.location = c.publishedLocation then c.seed :: fragments
    else fragments

end Catalog

end SchemaLoom
