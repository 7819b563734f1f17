import Mathlib.Data.List.DropRight
import StrataDb.Comparison

/-!
# The built-in functions and `LIKE`, on values (`query/expression/function.rs`, `temporal.rs`)

A checked integer operation is the exact one followed by a test that the result fits (`fitI64`).
-/

namespace StrataDb.Sql

open ByteCodec LexOrder

def fitI16 (n : Int) : Option Int16 :=
  if -2 ^ 15 ≤ n ∧ n < 2 ^ 15 then some (.ofInt n) else none

def fitI32 (n : Int) : Option Int32 :=
  if -2 ^ 31 ≤ n ∧ n < 2 ^ 31 then some (.ofInt n) else none

def fitI64 (n : Int) : Option Int64 :=
  if -2 ^ 63 ≤ n ∧ n < 2 ^ 63 then some (.ofInt n) else none

def checkedRem (a b : Int64) : Option Int64 :=
  if a = Int64.minValue ∧ b = -1 then none else fitI64 (a.toInt.tmod b.toInt)

def orTypeError {α : Type} (msg : String) : Option α → Outcome α
  | some a => .ok a
  | none => typeError msg

/-! ### Arithmetic -/

inductive BinaryOperator where
  | eq | notEq | lt | ltEq | gt | gtEq
  | and | or
  | add | sub | mul | div | mod
  | concat
deriving DecidableEq, Repr

def evalNeg (rt : Runtime) : Value → Outcome Value
  | .null => .ok .null
  | .int16 n => return .int16 (← orTypeError "negation out of range" (fitI16 (-n.toInt)))
  | .int32 n => return .int32 (← orTypeError "negation out of range" (fitI32 (-n.toInt)))
  | .int64 n => return .int64 (← orTypeError "negation out of range" (fitI64 (-n.toInt)))
  | .float32 bits => .ok (.float32 (bits ^^^ 0x80000000))
  | .float64 bits => .ok (.float64 (bits ^^^ 0x8000000000000000))
  | .numeric d => .ok (.numeric d.neg)
  | other => typeError ("cannot negate " ++ rt.debug other)

def intArith (op : BinaryOperator) (a b : Int64) : Outcome Value := do
  let result ← match op with
    | .add => pure (fitI64 (a.toInt + b.toInt))
    | .sub => pure (fitI64 (a.toInt - b.toInt))
    | .mul => pure (fitI64 (a.toInt * b.toInt))
    | .div => if b = 0 then typeError "division by zero" else pure (fitI64 (a.toInt.tdiv b.toInt))
    | .mod => if b = 0 then typeError "division by zero" else pure (checkedRem a b)
    | _ => panicked "non-arithmetic op reached int_arith"
  return .int64 (← orTypeError "integer overflow" result)

def isZeroF64 (bits : UInt64) : Bool :=
  bits == 0 || bits == 0x8000000000000000

def floatArith (rt : Runtime) (op : BinaryOperator) (a b : UInt64) : Outcome Value :=
  match op with
  | .add => .ok (.float64 (rt.f64Add a b))
  | .sub => .ok (.float64 (rt.f64Sub a b))
  | .mul => .ok (.float64 (rt.f64Mul a b))
  | .div => if isZeroF64 b then typeError "division by zero" else .ok (.float64 (rt.f64Div a b))
  | .mod => typeError "modulo is undefined for floating point"
  | _ => panicked "non-arithmetic op reached float_arith"

def decimalArith (rt : Runtime) (op : BinaryOperator) (a b : Decimal) : Outcome Value := do
  let result ← match op with
    | .add => pure (rt.decimalAdd a b)
    | .sub => pure (rt.decimalSub a b)
    | .mul => pure (rt.decimalMul a b)
    | .div => if b.isZero then typeError "division by zero" else pure (rt.decimalDiv a b)
    | .mod => if b.isZero then typeError "division by zero" else pure (rt.decimalRem a b)
    | _ => panicked "non-arithmetic op reached decimal_arith"
  return .numeric (← orTypeError "numeric overflow" result)

def Value.isFloat : Value → Bool
  | .float32 _ | .float64 _ => true
  | _ => false

def evalArithmetic (rt : Runtime) (op : BinaryOperator) (lhs rhs : Value) : Outcome Value :=
  match asI64 lhs, asI64 rhs with
  | some a, some b => intArith op a b
  | _, _ =>
    match if lhs.isFloat || rhs.isFloat then (asF64 rt lhs, asF64 rt rhs) else (none, none) with
    | (some a, some b) => floatArith rt op a b
    | _ =>
      match asDecimal lhs, asDecimal rhs with
      | some a, some b => decimalArith rt op a b
      | _, _ =>
        typeError ("cannot apply arithmetic to " ++ rt.debug lhs ++ " and " ++ rt.debug rhs)

/-! ### Texts -/

def pad2 (n : Int) : String :=
  if 0 ≤ n ∧ n < 10 then "0" ++ toString n else toString n

/-- Outside the range of dates `chrono` has, the addition to the epoch panics. -/
def formatDate (rt : Runtime) (days : Int32) : Outcome String :=
  match rt.dateToString days with
  | some s => .ok s
  | none => panicked "`NaiveDate + TimeDelta` overflowed"

def formatTimestamptz (rt : Runtime) (micros : Int64) : Outcome String :=
  match rt.timestamptzToString micros with
  | some s => .ok s
  | none => panicked "timestamp micros in range"

def formatTime (micros : Int64) : String :=
  let secs := micros.toInt / 1000000
  pad2 (secs.tdiv 3600) ++ ":" ++ pad2 ((secs.tdiv 60).tmod 60) ++ ":" ++ pad2 (secs.tmod 60)

mutual

def concatStr (rt : Runtime) : Value → Outcome String
  | .null => .ok ""
  | .bool b => .ok (if b then "t" else "f")
  | .int16 n => .ok (toString n.toInt)
  | .int32 n => .ok (toString n.toInt)
  | .int64 n => .ok (toString n.toInt)
  | .float32 bits => .ok (rt.f32ToString bits)
  | .float64 bits => .ok (rt.f64ToString bits)
  | .numeric d => .ok (rt.decimalToString d)
  | .text s => .ok s
  | .date days => formatDate rt days
  | .timestamp micros => formatTimestamptz rt micros
  | .time micros => .ok (formatTime micros)
  | .uuid u => .ok (rt.uuidToString u)
  | .interval i => .ok (rt.intervalToString i)
  | .array items => do
    let parts ← concatParts rt items
    return "\x7b" ++ String.intercalate "," parts ++ "\x7d"
  | .bytes b => typeError ("cannot concatenate " ++ rt.debug (.bytes b))
  | .json j => typeError ("cannot concatenate " ++ rt.debug (.json j))

def concatParts (rt : Runtime) : List Value → Outcome (List String)
  | [] => .ok []
  | v :: vs => do
    let s ← concatStr rt v
    let parts ← concatParts rt vs
    return s :: parts

end

/-- `like_match` from the state of its scan: the positions in the text and the
    pattern, the position of the last `%` and where its run began. -/
def likeLoop (t p : List Char) (ti pi : Nat) (starPi : Option Nat) (starTi : Nat)
    (h : starTi ≤ ti) : Bool :=
  if hti : ti < t.length then
    if hpi : pi < p.length then
      if p[pi] = '_' ∨ p[pi] = t[ti] then
        likeLoop t p (ti + 1) (pi + 1) starPi starTi (Nat.le_succ_of_le h)
      else if p[pi] = '%' then
        likeLoop t p ti (pi + 1) (some pi) ti (Nat.le_refl ti)
      else
        -- mismatch: the last `%` absorbs one more character
        match starPi with
        | some sp => likeLoop t p (starTi + 1) (sp + 1) (some sp) (starTi + 1) (Nat.le_refl _)
        | none => false
    else
      match starPi with
      | some sp => likeLoop t p (starTi + 1) (sp + 1) (some sp) (starTi + 1) (Nat.le_refl _)
      | none => false
  else
    -- `%`s at the end of the pattern match the empty run
    (p.drop pi).all (· == '%')
termination_by (t.length - starTi + (if starPi.isSome then 0 else 1),
  (t.length - ti) + (p.length - pi))
decreasing_by
  · exact Prod.Lex.right _ (by omega)
  · rcases starPi with _ | sp
    · refine Prod.Lex.left _ _ ?_
      simp only [Option.isSome_some, if_true, Option.isSome_none, Bool.false_eq_true, if_false]
      omega
    · rcases Nat.lt_or_ge starTi ti with hlt | hge
      · refine Prod.Lex.left _ _ ?_
        simp only [Option.isSome_some, if_true]
        omega
      · obtain rfl : starTi = ti := Nat.le_antisymm h hge
        exact Prod.Lex.right _ (by omega)
  · refine Prod.Lex.left _ _ ?_
    simp only [Option.isSome_some, if_true]
    omega
  · refine Prod.Lex.left _ _ ?_
    simp only [Option.isSome_some, if_true]
    omega

def likeMatch (text pattern : String) : Bool :=
  likeLoop text.toList pattern.toList 0 0 none 0 (Nat.le_refl 0)

def evalLike (rt : Runtime) (value pattern : Value) (negated : Bool) : Outcome Value :=
  match value, pattern with
  | .null, _ | _, .null => .ok .null
  | .text s, .text p => .ok (.bool (likeMatch s p ^^ negated))
  | l, r => typeError ("LIKE expects text operands, got " ++ rt.debug l ++ " / " ++ rt.debug r)

def saturatingAdd (a b : Int64) : Int :=
  max (-2 ^ 63) (min (2 ^ 63 - 1) (a.toInt + b.toInt))

/-- The characters at the 1-based positions from `start` on, `length` of them, as far
    as the text has them. -/
def evalSubstr (s from_ len : Value) : Outcome Value :=
  match s, from_, len with
  | .null, _, _ | _, .null, _ | _, _, .null => .ok .null
  | .text text, from_, len => do
    let start ← orTypeError "SUBSTRING start must be an integer" (asI64 from_)
    let length ← orTypeError "SUBSTRING length must be an integer" (asI64 len)
    let chars := text.toList
    let n : Int := chars.length
    let fromIdx := max start.toInt 1
    let toIdx := min (saturatingAdd start length) (n + 1)
    if toIdx ≤ fromIdx then
      return .text ""
    return .text (.ofList ((chars.take (toIdx - 1).toNat).drop (fromIdx - 1).toNat))
  | _, _, _ => typeError "SUBSTRING expects a text value"

def evalTrim (s chars : Value) (leading trailing : Bool) : Outcome Value :=
  match s, chars with
  | .null, _ | _, .null => .ok .null
  | .text text, .text set =>
    let set := set.toList
    let cs := text.toList
    let cs := if leading then cs.dropWhile set.contains else cs
    let cs := if trailing then cs.rdropWhile set.contains else cs
    .ok (.text (.ofList cs))
  | _, _ => typeError "TRIM expects text values"

def evalLength (rt : Runtime) : Value → Outcome Value
  | .null => .ok .null
  | .text s => .ok (.int64 (.ofInt s.toList.length))
  | other => typeError ("LENGTH of non-text value " ++ rt.debug other)

/-- `str::repeat` panics when the length of the result is not a size of memory. -/
def evalRepeat (s n : Value) : Outcome Value :=
  match s, n with
  | .null, _ | _, .null => .ok .null
  | .text text, n => do
    let count ← orTypeError "REPEAT count must be an integer" (asI64 n)
    let count := (max count.toInt 0).toNat
    if text.utf8ByteSize * count < 2 ^ 63 then
      return .text (String.join (List.replicate count text))
    else
      panicked "capacity overflow"
  | _, _ => typeError "REPEAT expects a text first argument"

def evalCase (rt : Runtime) (v : Value) (upper : Bool) : Outcome Value :=
  match v with
  | .null => .ok .null
  | .text s => .ok (.text (if upper then rt.toUppercase s else rt.toLowercase s))
  | other => typeError ("case folding a non-text value " ++ rt.debug other)

/-! ### Numbers -/

inductive Rounding where
  | ceil
  | floor
  | nearest

def Rounding.f64Round (rt : Runtime) : Rounding → UInt64 → UInt64
  | .ceil => rt.f64Ceil
  | .floor => rt.f64Floor
  | .nearest => Sql.f64Round

def Rounding.decRound (rt : Runtime) : Rounding → Decimal → Decimal
  | .ceil => rt.decimalCeil
  | .floor => rt.decimalFloor
  | .nearest => rt.decimalRound

def evalRound (rt : Runtime) (v : Value) (mode : Rounding) : Outcome Value :=
  match v with
  | .null => .ok .null
  | .int16 n => .ok (.int16 n)
  | .int32 n => .ok (.int32 n)
  | .int64 n => .ok (.int64 n)
  | .float32 bits => .ok (.float32 (rt.f32OfF64 (mode.f64Round rt (f64OfF32 bits))))
  | .float64 bits => .ok (.float64 (mode.f64Round rt bits))
  | .numeric d => .ok (.numeric (mode.decRound rt d))
  | other => typeError ("rounding a non-numeric value " ++ rt.debug other)

def evalNullif (rt : Runtime) (a b : Value) : Outcome Value :=
  .ok (if valuesEq rt a b then .null else a)

def evalAbs (rt : Runtime) : Value → Outcome Value
  | .null => .ok .null
  | .int16 n => return .int16 (← orTypeError "ABS argument out of range" (fitI16 |n.toInt|))
  | .int32 n => return .int32 (← orTypeError "ABS argument out of range" (fitI32 |n.toInt|))
  | .int64 n => return .int64 (← orTypeError "ABS argument out of range" (fitI64 |n.toInt|))
  | .float32 bits => .ok (.float32 (bits &&& 0x7FFFFFFF))
  | .float64 bits => .ok (.float64 (bits &&& 0x7FFFFFFFFFFFFFFF))
  | .numeric d => .ok (.numeric d.abs)
  | other => typeError ("ABS of non-numeric value " ++ rt.debug other)

/-- `AND` and `OR` are decided by one side where they can be, before `NULL`
    propagates. -/
def shortCircuit : BinaryOperator → Value → Value → Option Bool
  | .and, .bool false, _ | .and, _, .bool false => some false
  | .or, .bool true, _ | .or, _, .bool true => some true
  | _, _, _ => none

def evalBinary (rt : Runtime) (op : BinaryOperator) (lhs rhs : Value) : Outcome Value :=
  match shortCircuit op lhs rhs with
  | some b => .ok (.bool b)
  | none =>
    if lhs.isNull || rhs.isNull then
      .ok .null
    else
      match op with
      | .eq => .ok (.bool (valuesEq rt lhs rhs))
      | .notEq => .ok (.bool !(valuesEq rt lhs rhs))
      | .lt => return .bool (← cmpValues rt lhs rhs).isLT
      | .ltEq => return .bool (← cmpValues rt lhs rhs).isLE
      | .gt => return .bool (← cmpValues rt lhs rhs).isGT
      | .gtEq => return .bool (← cmpValues rt lhs rhs).isGE
      | .and =>
        match lhs, rhs with
        | .bool a, .bool b => .ok (.bool (a && b))
        | l, r => internalError ("AND expects Bool, got " ++ rt.debug l ++ " / " ++ rt.debug r)
      | .or =>
        match lhs, rhs with
        | .bool a, .bool b => .ok (.bool (a || b))
        | l, r => internalError ("OR expects Bool, got " ++ rt.debug l ++ " / " ++ rt.debug r)
      | .add | .sub | .mul | .div | .mod => evalArithmetic rt op lhs rhs
      | .concat => return .text ((← concatStr rt lhs) ++ (← concatStr rt rhs))

end StrataDb.Sql
