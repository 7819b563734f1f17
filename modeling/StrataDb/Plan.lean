import StrataDb.SortKey
import StrataDb.SystemCatalog

/-!
# Logical and physical plans, and lowering (`crates/strata-db/src/query/planner/lower.rs`)

An inner join on one column of each side becomes a sort-merge join over sorted inputs, every other
join a block nested-loop join. A plan is its root.
-/

namespace StrataDb.Sql

inductive JoinType where
  | inner
  | left
  | right
  | full
deriving DecidableEq, Repr

namespace JoinType

/-- Rows of the left side without a partner are kept. -/
def keepsLeft : JoinType → Bool
  | .left | .full => true
  | _ => false

def keepsRight : JoinType → Bool
  | .right | .full => true
  | _ => false

end JoinType

/-- What a statement asks for. -/
inductive LogicalNode where
  | scan (table : Table)
  | systemScan (relation : SystemRelation)
  | filter (input : LogicalNode) (predicate : Expr)
  | project (input : LogicalNode) (expressions : List Expr)
  | limit (input : LogicalNode) (count : Nat)
  | offset (input : LogicalNode) (count : Nat)
  | join (left right : LogicalNode) (on : Option Expr) (joinType : JoinType)
      (leftSchema rightSchema : Schema)
  | sort (input : LogicalNode) (keys : List SortKey) (inputSchema : Schema)
  | values (rows : List Tuple)
  | insert (table : Table) (input : LogicalNode)
  | delete (table : Table) (input : LogicalNode)
  | createTable (projectId : ProjectId) (datasetId : DatasetId) (name : String) (schema : Schema)
      (orReplace : Bool)
  | createDataset (projectId : ProjectId) (name : String) (ifNotExists : Bool)

/-- The join operators. -/
inductive JoinStrategy where
  | nestedLoop
  | blockNestedLoop
  | sortMerge
  | graceHash
deriving DecidableEq, Repr

/-- What the executor runs. -/
inductive PlanNode where
  | seqScan (table : Table)
  | systemScan (relation : SystemRelation)
  | filter (input : PlanNode) (predicate : Expr)
  | project (input : PlanNode) (expressions : List Expr)
  | limit (input : PlanNode) (count : Nat)
  | offset (input : PlanNode) (count : Nat)
  | sort (input : PlanNode) (keys : List SortKey) (inputSchema : Schema)
  | join (left right : PlanNode) (on : Option Expr) (joinType : JoinType)
      (leftSchema rightSchema : Schema) (strategy : JoinStrategy)
  | values (rows : List Tuple)
  | insert (table : Table) (input : PlanNode)
  | delete (table : Table) (input : PlanNode)
  | createTable (projectId : ProjectId) (datasetId : DatasetId) (name : String) (schema : Schema)
      (orReplace : Bool)
  | createDataset (projectId : ProjectId) (name : String) (ifNotExists : Bool)

/-! ### Lowering -/

/-- One column of either side, in any order. -/
def splitKeys (a b leftArity : Nat) : Option (Nat × Nat) :=
  if a < leftArity ∧ leftArity ≤ b then some (a, b - leftArity)
  else if b < leftArity ∧ leftArity ≤ a then some (b, a - leftArity)
  else none

/-- The two columns of `a = b`, by side. -/
def equiJoinKeys (on : Option Expr) (leftArity : Nat) : Option (Nat × Nat) :=
  match on with
  | some (.binary .eq (.column a) (.column b)) => splitKeys a b leftArity
  | _ => none

def sortOn (input : PlanNode) (column : Nat) (inputSchema : Schema) : PlanNode :=
  .sort input [⟨.column column, true, false⟩] inputSchema

/-- `lower_join`. -/
def lowerJoin (left right : PlanNode) (on : Option Expr) (joinType : JoinType)
    (leftSchema rightSchema : Schema) : PlanNode :=
  match joinType, equiJoinKeys on leftSchema.fields.length with
  | .inner, some (leftKey, rightKey) =>
    .join (sortOn left leftKey leftSchema) (sortOn right rightKey rightSchema) on joinType
      leftSchema rightSchema .sortMerge
  | _, _ => .join left right on joinType leftSchema rightSchema .blockNestedLoop

/-- `lower`. -/
def LogicalNode.lower : LogicalNode → PlanNode
  | .scan table => .seqScan table
  | .systemScan relation => .systemScan relation
  | .filter input predicate => .filter input.lower predicate
  | .project input expressions => .project input.lower expressions
  | .limit input count => .limit input.lower count
  | .offset input count => .offset input.lower count
  | .sort input keys inputSchema => .sort input.lower keys inputSchema
  | .join left right on joinType leftSchema rightSchema =>
    lowerJoin left.lower right.lower on joinType leftSchema rightSchema
  | .values rows => .values rows
  | .insert table input => .insert table input.lower
  | .delete table input => .delete table input.lower
  | .createTable projectId datasetId name schema orReplace =>
    .createTable projectId datasetId name schema orReplace
  | .createDataset projectId name ifNotExists => .createDataset projectId name ifNotExists

end StrataDb.Sql
