import ApiSchema.Schema.Node
import ApiSchema.Source.Definition

/-!
What has been read and inferred so far: modules by their names, and schemas by the name of their
subject, after which a direction may follow a `#`. Schemas are kept only while the cache is enabled.
Dropping a module drops every schema, since any of them may hold a type of that module.
-/
namespace ApiSchema

structure CacheCounts where
  schemaHits : Nat := 0
  schemaMisses : Nat := 0
  moduleHits : Nat := 0
  moduleMisses : Nat := 0
deriving DecidableEq, Repr

structure Cache where
  enabled : Bool := true
  schemas : Entries Node := []
  modules : Entries Source.Module := []
  counts : CacheCounts := {}

namespace Cache

def subjectOf (key : String) : String := (Text.cut '#' key).1

def getSchema (c : Cache) (key : String) : Option Node × Cache :=
  if !c.enabled then (none, c)
  else match c.schemas.get? key with
    | some n => (some n, { c with counts := { c.counts with schemaHits := c.counts.schemaHits + 1 } })
    | none => (none, { c with counts := { c.counts with schemaMisses := c.counts.schemaMisses + 1 } })

def putSchema (c : Cache) (key : String) (n : Node) : Cache :=
  if c.enabled then { c with schemas := c.schemas.set key n } else c

def getModule (c : Cache) (name : String) : Option Source.Module × Cache :=
  match c.modules.get? name with
  | some m => (some m, { c with counts := { c.counts with moduleHits := c.counts.moduleHits + 1 } })
  | none => (none, { c with counts := { c.counts with moduleMisses := c.counts.moduleMisses + 1 } })

def putModule (c : Cache) (name : String) (m : Source.Module) : Cache :=
  { c with modules := c.modules.set name m }

/-- The cache without the schemas of a subject, or without a module and all schemas. -/
def invalidate (c : Cache) (name : String) : Cache :=
  if c.modules.has name then { c with schemas := [], modules := c.modules.erase name }
  else { c with schemas := c.schemas.filter fun e => subjectOf e.1 != name }

def clear (c : Cache) : Cache := { c with schemas := [], modules := [] }

end Cache
end ApiSchema
