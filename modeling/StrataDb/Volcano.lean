import StrataDb.GraceHash
import StrataDb.Sort

/-!
# Building the row stream of a read plan (`crates/strata-db/src/query/volcano/mod.rs`)
-/

namespace StrataDb.Sql

/-- The stream of a join; the inputs are built by the operator. -/
def buildJoin (ctx : QueryContext) (leftNode rightNode : PlanNode) (on : Option Expr)
    (joinType : JoinType) (leftSchema rightSchema : Schema) (left right : Outcome RowStream) :
    JoinStrategy → Outcome RowStream
  | .nestedLoop =>
    nestedLoopJoin ctx.runtime on joinType (outputArity leftNode) (outputArity rightNode) left right
  | .blockNestedLoop =>
    blockNestedLoopJoin ctx.runtime on joinType (outputArity leftNode) (outputArity rightNode)
      rightSchema left right
  | .sortMerge => sortMergeJoin ctx.runtime on leftNode left right
  | .graceHash =>
    graceHashJoin ctx on joinType leftSchema rightSchema leftNode rightNode left right

def build (ctx : QueryContext) : PlanNode → Outcome RowStream
  | .seqScan table => .ok (ctx.scan table)
  | .systemScan relation => do return .ofRows (← relation.rows ctx.catalog)
  | .filter input predicate => do return filter ctx.runtime predicate (← build ctx input)
  | .project input expressions => do return project ctx.runtime expressions (← build ctx input)
  | .limit input count => do return limit count (← build ctx input)
  | .offset input count => do return offset count (← build ctx input)
  | .join left right on joinType leftSchema rightSchema strategy =>
    buildJoin ctx left right on joinType leftSchema rightSchema (build ctx left) (build ctx right)
      strategy
  | .sort input keys inputSchema => do sort ctx keys inputSchema (← build ctx input)
  | .values rows => .ok (.ofRows rows)
  | .insert _ _ | .delete _ _ | .createTable _ _ _ _ _ | .createDataset _ _ _ =>
    internalError "write sinks may only appear at the top of a plan"

def drain (ctx : QueryContext) (input : PlanNode) : Outcome (List Tuple) := do
  (← build ctx input).collect

end StrataDb.Sql
