import StrataDb.BindExpr
import StrataDb.Tables

/-!
# Binding column definitions (`crates/strata-db/src/query/planner/binder/ddl.rs`)

A `DEFAULT` is bound without a scope and stored as the JSON text of the bound expression.
-/

namespace StrataDb.Sql

open Runs (bind_eq_ok)

structure ExprSerde where
  toString : Expr → Except String String
  fromStr : String → Except String Expr

/-! ### Columns -/

inductive ColumnOption where
  | null
  | notNull
  | default (expr : AstExpr)
  | other (debug : String)

structure ColumnDef where
  name : String
  dataType : DataType
  options : List ColumnOption

def bindOptions (rt : Runtime) (serde : ExprSerde) :
    List ColumnOption → Bool → Option String → Outcome (Bool × Option String)
  | [], nullable, default => .ok (nullable, default)
  | .null :: options, _, default => bindOptions rt serde options true default
  | .notNull :: options, _, default => bindOptions rt serde options false default
  | .default expr :: options, nullable, _ => do
    let bound ← expr.bind rt none
    match serde.toString bound with
    | .ok json => bindOptions rt serde options nullable (some json)
    | .error e => internalError ("serialize DEFAULT expression: " ++ e)
  | .other debug :: _, _, _ => unsupported ("column option: " ++ debug)

def bindColumn (rt : Runtime) (serde : ExprSerde) (col : ColumnDef) : Outcome Field := do
  let ty ← bindDataType col.dataType
  let (nullable, default) ← bindOptions rt serde col.options true none
  return { name := col.name, ty, nullable, default }

def bindColumns (rt : Runtime) (serde : ExprSerde) : List ColumnDef → Outcome (List Field)
  | [] => .ok []
  | col :: cols => do
    let field ← bindColumn rt serde col
    return field :: (← bindColumns rt serde cols)

def bindSchema (rt : Runtime) (serde : ExprSerde) (columns : List ColumnDef) : Outcome Schema :=
  if columns.isEmpty then
    unsupported "CREATE TABLE with no columns"
  else do
    return ⟨← bindColumns rt serde columns⟩

end StrataDb.Sql
