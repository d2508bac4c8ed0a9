/-
Tenancy of a table.

The items of a table may belong to tenants.  The tenant of an item is kept in an attribute of
its own, which also partitions an index; the tenant of a caller is read from a claim.
-/
import SchemaLoom.Form

namespace SchemaLoom

/-- How the items of a table are divided among tenants. -/
structure Tenancy where
  field : String := "tenantId"
  indexSuffix : String := "MT"
  claim : String := "custom:tenantId"
  deriving DecidableEq, Repr

namespace Tenancy

/-- The name of the index that is partitioned by tenant. -/
def indexName (t : Tenancy) : String := t.field ++ t.indexSuffix

/-- Reads a tenancy. -/
def read (t : Tree) : Form.Check Tenancy := do
  let given ← Form.fieldsOf "MultiTenancySpec" t
  let field ← Form.defaulted given "field" "tenantId" Form.text
  let indexSuffix ← Form.renamed given "indexSuffix" "index_suffix" "MT" Form.text
  let claim ← Form.renamed given "ownerField" "claim" "custom:tenantId" Form.text
  Form.closed given
    [("field", none), ("indexSuffix", some "index_suffix"), ("ownerField", some "claim")]
  return { field, indexSuffix, claim }

end Tenancy

end SchemaLoom
