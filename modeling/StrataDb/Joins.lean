import StrataDb.RowStream
import StrataDb.Workspace

/-!
# The join operators (`crates/strata-db/src/query/volcano/join`: `nested_loop.rs`, `merge.rs`)

Every join gives rows `left ++ right`. Building an input may fail, and the operators differ in
which input they build first, so an operator is given the outcomes of both.
-/

namespace StrataDb.Sql

open ByteCodec
open Filesystem (MemoryWorkspace FsError)

def OUTER_BLOCK_TUPLES : Nat := 1024
def INNER_WORKSPACE_BUDGET : Nat := 256 * 1024 * 1024

/-! ### Row plumbing -/

def outputArity : PlanNode → Nat
  | .seqScan table => table.schema.fields.length
  | .systemScan relation => relation.schema.fields.length
  | .filter input _ | .limit input _ | .offset input _ | .sort input _ _ => outputArity input
  | .project _ expressions => expressions.length
  | .values rows => (rows.head?.map List.length).getD 0
  | .join left right _ _ _ _ _ => outputArity left + outputArity right
  | .insert _ _ | .delete _ _ | .createTable _ _ _ _ _ | .createDataset _ _ _ => 0

def equiKeys (on : Option Expr) (left : PlanNode) : Outcome (Nat × Nat) :=
  match on with
  | some (.binary .eq lhs rhs) =>
    match lhs, rhs with
    | .column a, .column b =>
      match splitKeys a b (outputArity left) with
      | some keys => .ok keys
      | none => internalError "equi-join key must reference both sides"
    | _, _ => internalError "equi-join key must be `column = column`"
  | _ => internalError "equi-join requires an equi-join predicate"

def concat (left right : Tuple) : Tuple := left ++ right

def padRight (left : Tuple) (rightWidth : Nat) : Tuple := left ++ List.replicate rightWidth .null

def padLeft (leftWidth : Nat) (right : Tuple) : Tuple := List.replicate leftWidth .null ++ right

def joinMatches (rt : Runtime) (on : Option Expr) (combined : Tuple) : Outcome Bool :=
  match on with
  | none => .ok true
  | some pred => do
    match ← pred.eval rt combined with
    | .bool true => return true
    | _ => return false

def matchRows (rt : Runtime) (on : Option Expr) (combine : Tuple → Tuple) :
    List Tuple → Outcome (List Bool)
  | [] => .ok []
  | row :: rows => do
    let flag ← joinMatches rt on (combine row)
    return flag :: (← matchRows rt on combine rows)

def pick {α : Type} : List Bool → List α → List α
  | flag :: flags, x :: xs => if flag then x :: pick flags xs else pick flags xs
  | _, _ => []

def pickNot {α : Type} (flags : List Bool) (xs : List α) : List α := pick (flags.map (!·)) xs

def orFlags (flags more : List Bool) : List Bool := flags.zipWith (· || ·) more

section NestedLoop

variable (rt : Runtime) (on : Option Expr) (joinType : JoinType)

/-- The loop over the left rows; `matched` flags the right rows that had a partner. -/
def nestedLoop (rightWidth : Nat) (rightRows : List Tuple) :
    List Tuple → List Bool → Outcome (List Tuple × List Bool)
  | [], matched => .ok ([], matched)
  | l :: leftRows, matched => do
    let flags ← matchRows rt on (concat l) rightRows
    let pairs := (pick flags rightRows).map (concat l)
    let kept := if !flags.any id && joinType.keepsLeft then [padRight l rightWidth] else []
    let (out, matched) ← nestedLoop rightWidth rightRows leftRows (orFlags matched flags)
    return (pairs ++ kept ++ out, matched)

def nestedLoopJoin (leftWidth rightWidth : Nat) (left right : Outcome RowStream) :
    Outcome RowStream := do
  let leftRows ← (← left).collect
  let rightRows ← (← right).collect
  let (out, matched) ← nestedLoop rt on joinType rightWidth rightRows leftRows
    (List.replicate rightRows.length false)
  let unmatched :=
    if joinType.keepsRight then (pickNot matched rightRows).map (padLeft leftWidth) else []
  return .ofRows (out ++ unmatched)

end NestedLoop

section BlockNestedLoop

variable (rt : Runtime) (on : Option Expr) (joinType : JoinType)

def materialize (schema : Schema) :
    RowStream → MemoryWorkspace → Nat → Outcome (MemoryWorkspace × Nat)
  | [], ws, count => .ok (ws, count)
  | row :: rest, ws, count => do
    let tuple ← row
    let bytes ← schema.encode rt tuple
    match ws.append bytes with
    | (.error e, _) => internalError ("join workspace: " ++ e.text)
    | (.ok _, ws) => materialize schema rest ws (count + 1)

def decodeRow (schema : Schema) (bytes : Bytes) : Outcome Tuple :=
  (schema.decode rt bytes).mapError (fun e => .error (.ofDecode e))

def fillBlock : Nat → RowStream → Outcome (List Tuple × RowStream)
  | 0, outer => .ok ([], outer)
  | _ + 1, [] => .ok ([], [])
  | n + 1, row :: rest => do
    let tuple ← row
    let (block, outer) ← fillBlock n rest
    return (tuple :: block, outer)

/-- One scan of the inner rows for a block: the output, the flags of the block's rows and
    those of the inner rows. -/
def scanInner (schema : Schema) (block : List Tuple) :
    List Bytes → List Bool → Outcome (List Tuple × List Bool × List Bool)
  | [], blockMatched => .ok ([], blockMatched, [])
  | bytes :: inner, blockMatched => do
    let r ← decodeRow rt schema bytes
    let flags ← matchRows rt on (fun l => concat l r) block
    let (out, blockMatched, innerMatched) ← scanInner schema block inner
      (orFlags blockMatched flags)
    return ((pick flags block).map (fun l => concat l r) ++ out, blockMatched,
      flags.any id :: innerMatched)

def joinBlocks (rightWidth : Nat) (schema : Schema) (inner : List Bytes) :
    Nat → RowStream → List Bool → Outcome (List Tuple × List Bool)
  | 0, _, innerMatched => .ok ([], innerMatched)
  | fuel + 1, outer, innerMatched => do
    let (block, outer) ← fillBlock OUTER_BLOCK_TUPLES outer
    if block.isEmpty then return ([], innerMatched)
    let (pairs, blockMatched, matched) ← scanInner rt on schema block inner
      (List.replicate block.length false)
    let kept :=
      if joinType.keepsLeft then (pickNot blockMatched block).map (padRight · rightWidth) else []
    let (out, innerMatched) ← joinBlocks rightWidth schema inner fuel outer
      (orFlags innerMatched matched)
    return (pairs ++ kept ++ out, innerMatched)

def padInner (leftWidth : Nat) (schema : Schema) : List Bytes → Outcome (List Tuple)
  | [] => .ok []
  | bytes :: inner => do
    let r ← decodeRow rt schema bytes
    return padLeft leftWidth r :: (← padInner leftWidth schema inner)

/-- The inner rows are materialized first, then the outer ones are pulled in blocks. -/
def blockNestedLoopJoin (leftWidth rightWidth : Nat) (rightSchema : Schema)
    (left right : Outcome RowStream) : Outcome RowStream := do
  let (inner, innerCount) ← materialize rt rightSchema (← right)
    (MemoryWorkspace.new INNER_WORKSPACE_BUDGET) 0
  let outer ← left
  let (out, innerMatched) ← joinBlocks rt on joinType rightWidth rightSchema inner.tuples
    (outer.length + 1) outer (List.replicate innerCount false)
  if joinType.keepsRight then
    let unmatched ← padInner rt leftWidth rightSchema (pickNot innerMatched inner.tuples)
    return .ofRows (out ++ unmatched)
  else return .ofRows out

end BlockNestedLoop

section SortMerge

variable (rt : Runtime)

def keyAt (row : Tuple) (key : Nat) : Outcome Value :=
  match row[key]? with
  | some v => .ok v
  | none =>
    panicked ("index out of bounds: the len is " ++ toString row.length ++ " but the index is "
      ++ toString key)

/-- The rows at the front whose key is equal to `k`, and the others. -/
def takeGroup (key : Nat) (k : Value) : List Tuple → Outcome (List Tuple × List Tuple)
  | [] => .ok ([], [])
  | row :: rows => do
    let v ← keyAt row key
    if (← cmpValues rt v k) = .eq then
      let (group, rest) ← takeGroup key k rows
      return (row :: group, rest)
    else return ([], row :: rows)

/-- The merge.  A round takes a row off one side or a group off both, so there are no
    more rounds than rows. -/
def mergeRows (leftKey rightKey : Nat) : Nat → List Tuple → List Tuple → Outcome (List Tuple)
  | _, [], _ => .ok []
  | _, _ :: _, [] => .ok []
  | 0, _ :: _, _ :: _ => panicked "the merge does not end"
  | fuel + 1, l :: leftRows, r :: rightRows => do
    let lk ← keyAt l leftKey
    let rk ← keyAt r rightKey
    if lk.isNull then mergeRows leftKey rightKey fuel leftRows (r :: rightRows)
    else if rk.isNull then mergeRows leftKey rightKey fuel (l :: leftRows) rightRows
    else
      match ← cmpValues rt lk rk with
      | .lt => mergeRows leftKey rightKey fuel leftRows (r :: rightRows)
      | .gt => mergeRows leftKey rightKey fuel (l :: leftRows) rightRows
      | .eq =>
        let (leftGroup, leftRest) ← takeGroup rt leftKey lk (l :: leftRows)
        let (rightGroup, rightRest) ← takeGroup rt rightKey rk (r :: rightRows)
        let out ← mergeRows leftKey rightKey fuel leftRest rightRest
        return leftGroup.flatMap (fun l => rightGroup.map (concat l)) ++ out

/-- The inputs come sorted on their keys. -/
def sortMergeJoin (on : Option Expr) (leftNode : PlanNode) (left right : Outcome RowStream) :
    Outcome RowStream := do
  let (leftKey, rightKey) ← equiKeys on leftNode
  let leftRows ← (← left).collect
  let rightRows ← (← right).collect
  let out ← mergeRows rt leftKey rightKey (leftRows.length + rightRows.length) leftRows rightRows
  return .ofRows out

end SortMerge

end StrataDb.Sql
