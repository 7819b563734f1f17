import StrataDb.Cast

/-!
# Scalar expressions and their evaluation (`crates/strata-db/src/query/expression`)

A recursion over the tree, strict in both sides of an operator, with `CASE`, `COALESCE`,
`GREATEST`, `LEAST` and `CONCAT` as loops that stop at the first error. A call with too few
arguments is a panic; the binder has checked the number.
-/

namespace StrataDb.Sql

open ByteCodec LexOrder

/-! ### Expressions -/

inductive ScalarFunc where
  | abs
  | greatest
  | least
  | ceil
  | floor
  | round
  | coalesce
  | length
  | repeat
  | upper
  | lower
  | nullif
  | concat
  | substr
  | trimBoth
  | trimLeading
  | trimTrailing
deriving DecidableEq, Repr

inductive Expr where
  | column (index : Nat)
  | literal (value : Value)
  | binary (op : BinaryOperator) (lhs rhs : Expr)
  | not (input : Expr)
  | call (func : ScalarFunc) (args : List Expr)
  | isNull (expr : Expr) (negated : Bool)
  | like (expr pattern : Expr) (negated : Bool)
  | neg (input : Expr)
  | case (branches : List (Expr × Expr)) (elseResult : Option Expr)
  | cast (input : Expr) (target : LogicalType)
  | array (elements : List Expr)

/-! ### Calls

A call asks for its arguments' values one at a time.  Evaluation has no effects, so the
model takes the outcome of every argument first and reads those it is asked for. -/

def argument (args : List (Outcome Value)) (i : Nat) : Outcome Value :=
  match args[i]? with
  | some outcome => outcome
  | none =>
    panicked ("index out of bounds: the len is " ++ toString args.length ++ " but the index is "
      ++ toString i)

/-- `GREATEST` and `LEAST` keep what they have unless the next argument is beyond it. -/
def takeExtreme (rt : Runtime) (greatest : Bool) (cur v : Value) : Outcome Value := do
  let ord ← cmpValues rt cur v
  let takeNew := if greatest then ord.isLT else ord.isGT
  return if takeNew then v else cur

def evalExtreme (rt : Runtime) (greatest : Bool) :
    List (Outcome Value) → Option Value → Outcome Value
  | [], best => .ok (best.getD .null)
  | arg :: args, best => do
    let v ← arg
    if v.isNull then
      evalExtreme rt greatest args best
    else
      match best with
      | none => evalExtreme rt greatest args (some v)
      | some cur => evalExtreme rt greatest args (some (← takeExtreme rt greatest cur v))

def evalCoalesce : List (Outcome Value) → Outcome Value
  | [] => .ok .null
  | arg :: args => do
    let v ← arg
    if v.isNull then evalCoalesce args else return v

def evalConcat (rt : Runtime) : List (Outcome Value) → String → Outcome Value
  | [], out => .ok (.text out)
  | arg :: args, out => do
    let v ← arg
    if v.isNull then
      evalConcat rt args out
    else
      evalConcat rt args (out ++ (← concatStr rt v))

def evalCall (rt : Runtime) (func : ScalarFunc) (args : List (Outcome Value)) : Outcome Value :=
  match func with
  | .abs => do evalAbs rt (← argument args 0)
  | .greatest => evalExtreme rt true args none
  | .least => evalExtreme rt false args none
  | .ceil => do evalRound rt (← argument args 0) .ceil
  | .floor => do evalRound rt (← argument args 0) .floor
  | .round => do evalRound rt (← argument args 0) .nearest
  | .coalesce => evalCoalesce args
  | .length => do evalLength rt (← argument args 0)
  | .repeat => do evalRepeat (← argument args 0) (← argument args 1)
  | .upper => do evalCase rt (← argument args 0) true
  | .lower => do evalCase rt (← argument args 0) false
  | .nullif => do evalNullif rt (← argument args 0) (← argument args 1)
  | .concat => evalConcat rt args ""
  | .substr => do evalSubstr (← argument args 0) (← argument args 1) (← argument args 2)
  | .trimBoth => do evalTrim (← argument args 0) (← argument args 1) true true
  | .trimLeading => do evalTrim (← argument args 0) (← argument args 1) true false
  | .trimTrailing => do evalTrim (← argument args 0) (← argument args 1) false true

def firstBranch : List (Outcome Value × Outcome Value) → Outcome Value → Outcome Value
  | [], otherwise => otherwise
  | (cond, result) :: branches, otherwise => do
    match ← cond with
    | .bool true => result
    | _ => firstBranch branches otherwise

def collect : List (Outcome Value) → Outcome (List Value)
  | [] => .ok []
  | outcome :: outcomes => do
    let v ← outcome
    let vs ← collect outcomes
    return v :: vs

/-! ### Evaluation -/

mutual

def Expr.eval (rt : Runtime) (tuple : Tuple) : Expr → Outcome Value
  | .column index =>
    match tuple[index]? with
    | some v => .ok v
    | none =>
      internalError ("column index " ++ toString index ++ " out of bounds (arity "
        ++ toString tuple.length ++ ")")
  | .literal value => .ok value
  | .not input => do
    match ← input.eval rt tuple with
    | .null => return .null
    | .bool b => return .bool !b
    | other => internalError ("NOT expects Bool, got " ++ rt.debug other)
  | .binary op lhs rhs => do evalBinary rt op (← lhs.eval rt tuple) (← rhs.eval rt tuple)
  | .call func args => evalCall rt func (outcomes rt tuple args)
  | .isNull expr negated => return .bool ((← expr.eval rt tuple).isNull ^^ negated)
  | .like expr pattern negated => do
    evalLike rt (← expr.eval rt tuple) (← pattern.eval rt tuple) negated
  | .neg input => do evalNeg rt (← input.eval rt tuple)
  | .case branches elseResult =>
    firstBranch (branchOutcomes rt tuple branches) (elseOutcome rt tuple elseResult)
  | .cast input target => do evalCast rt (← input.eval rt tuple) target
  | .array elements => return .array (← collect (outcomes rt tuple elements))

def outcomes (rt : Runtime) (tuple : Tuple) : List Expr → List (Outcome Value)
  | [] => []
  | e :: es => e.eval rt tuple :: outcomes rt tuple es

def branchOutcomes (rt : Runtime) (tuple : Tuple) :
    List (Expr × Expr) → List (Outcome Value × Outcome Value)
  | [] => []
  | (cond, result) :: branches =>
    (cond.eval rt tuple, result.eval rt tuple) :: branchOutcomes rt tuple branches

def elseOutcome (rt : Runtime) (tuple : Tuple) : Option Expr → Outcome Value
  | some e => e.eval rt tuple
  | none => .ok .null

end

end StrataDb.Sql
