import StrataDb.BindExpr

/-!
# Table descriptors (`catalog/tables.rs`, `ids.rs`) and the names SQL reaches them by

A table is addressed by three UUIDs and the number of its incarnation, which `CREATE OR REPLACE`
counts up. The clustered key and the indexes are left out: nothing reads them.
-/

namespace StrataDb.Sql

structure ProjectId where
  uuid : Uuid
deriving DecidableEq

structure DatasetId where
  uuid : Uuid
deriving DecidableEq

structure TableId where
  uuid : Uuid
deriving DecidableEq

structure TruncationId where
  count : UInt64
deriving DecidableEq

namespace TruncationId

def INITIAL : TruncationId := ⟨0⟩

/-- The next incarnation; the counter does not wrap. -/
def next (t : TruncationId) : Option TruncationId :=
  if t.count.toNat + 1 < 2 ^ 64 then some ⟨t.count + 1⟩ else none

end TruncationId

structure Table where
  projectId : ProjectId
  datasetId : DatasetId
  id : TableId
  truncationId : TruncationId
  name : String
  schema : Schema

def DEFAULT_PROJECT_NAME : String := "strata"

def DEFAULT_DATASET_NAME : String := "public"

def nameIdents (name : ObjectName) : Outcome (List String) :=
  match name.parts.mapM id with
  | some idents => .ok idents
  | none => unsupported ("non-identifier in name: " ++ name.display)

/-- A table's project, dataset and name, the missing ones from the search path. -/
def qualifyTableName (name : ObjectName) : Outcome (String × String × String) := do
  match ← nameIdents name with
  | [t] => return (DEFAULT_PROJECT_NAME, DEFAULT_DATASET_NAME, t)
  | [d, t] => return (DEFAULT_PROJECT_NAME, d, t)
  | [p, d, t] => return (p, d, t)
  | _ =>
    unsupported ("table name has too many parts (max project.dataset.table): " ++ name.display)

end StrataDb.Sql
