import StrataDb.SqlTypes

/-!
# Comparing runtime values (`crates/strata-db/src/query/expression/mod.rs`)

Numbers are compared in the first of three domains that holds both sides: 64-bit integers, exact
decimals, doubles. On types that do not mix `values_eq` says `false`, and `cmp_values` has a type
error.
-/

namespace StrataDb.Sql

open ByteCodec LexOrder

def asI64 : Value → Option Int64
  | .int16 n => some n.toInt64
  | .int32 n => some n.toInt64
  | .int64 n => some n
  | _ => none

def asDecimal : Value → Option Decimal
  | .int16 n => some (.ofInt64 n.toInt64)
  | .int32 n => some (.ofInt64 n.toInt64)
  | .int64 n => some (.ofInt64 n)
  | .numeric d => some d
  | _ => none

def asF64 (rt : Runtime) : Value → Option UInt64
  | .int16 n => some (f64OfI64 n.toInt64)
  | .int32 n => some (f64OfI64 n.toInt64)
  | .int64 n => some (f64OfI64 n)
  | .float32 bits => some (f64OfF32 bits)
  | .float64 bits => some bits
  | .numeric d => rt.decimalToF64 d
  | _ => none

def totalCmp (a b : UInt64) : Ordering :=
  order (totalOrder a.toBitVec) (totalOrder b.toBitVec)

/-! ### Equality and order -/

/-- `PartialEq for Value`, on the pairs that reach it: of one type and no number,
    interval or array, or of different types. -/
def structuralEq : Value → Value → Bool
  | .null, .null => true
  | .bool a, .bool b => a == b
  | .text a, .text b => a == b
  | .bytes a, .bytes b => a == b
  | .json a, .json b => a.eq b
  | .date a, .date b => a == b
  | .timestamp a, .timestamp b => a == b
  | .time a, .time b => a == b
  | .uuid a, .uuid b => a == b
  | _, _ => false

mutual

def valuesEq (rt : Runtime) (lhs rhs : Value) : Bool :=
  match asI64 lhs, asI64 rhs with
  | some a, some b => a == b
  | _, _ =>
    match asDecimal lhs, asDecimal rhs with
    | some a, some b => a.compare b == .eq
    | _, _ =>
      match asF64 rt lhs, asF64 rt rhs with
      | some a, some b => totalCmp a b == .eq
      | _, _ =>
        match lhs, rhs with
        | .interval a, .interval b => a.toMicros == b.toMicros
        | .array a, .array b => a.length == b.length && itemsEq rt a b
        | _, _ => structuralEq lhs rhs

def itemsEq (rt : Runtime) : List Value → List Value → Bool
  | x :: xs, y :: ys => valuesEq rt x y && itemsEq rt xs ys
  | _, _ => true

end

mutual

def cmpValues (rt : Runtime) (lhs rhs : Value) : Outcome Ordering :=
  match asI64 lhs, asI64 rhs with
  | some a, some b => .ok (order a.toInt b.toInt)
  | _, _ =>
    match asDecimal lhs, asDecimal rhs with
    | some a, some b => .ok (a.compare b)
    | _, _ =>
      match asF64 rt lhs, asF64 rt rhs with
      | some a, some b => .ok (totalCmp a b)
      | _, _ =>
        match lhs, rhs with
        | .bool a, .bool b => .ok (order a b)
        | .text a, .text b => .ok (order (utf8 a) (utf8 b))
        | .date a, .date b => .ok (order a.toInt b.toInt)
        | .timestamp a, .timestamp b => .ok (order a.toInt b.toInt)
        | .time a, .time b => .ok (order a.toInt b.toInt)
        | .uuid a, .uuid b => .ok (order a.bytes b.bytes)
        | .interval a, .interval b => .ok (order a.toMicros b.toMicros)
        | .array a, .array b => cmpItems rt a b
        | l, r => typeError ("cannot compare " ++ rt.debug l ++ " and " ++ rt.debug r)

/-- The first pair of items that differs decides; otherwise the shorter array comes
    first.  What is left of the two arrays has the difference of their lengths. -/
def cmpItems (rt : Runtime) : List Value → List Value → Outcome Ordering
  | x :: xs, y :: ys =>
    match cmpValues rt x y with
    | .ok .eq => cmpItems rt xs ys
    | r => r
  | xs, ys => .ok (order xs.length ys.length)

end

end StrataDb.Sql
