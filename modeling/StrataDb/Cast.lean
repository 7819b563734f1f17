import StrataDb.ScalarFunction

/-!
# `CAST` and `::` (`crates/strata-db/src/query/expression/cast.rs`, `storage/temporal.rs`)

`NULL` casts to `NULL`. Each target accepts the sources that convert sensibly and has a type error
for the rest.
-/

namespace StrataDb.Sql

open ByteCodec LexOrder

def parseDate (rt : Runtime) (s : String) : Outcome Int32 :=
  orTypeError ("invalid DATE literal: " ++ rt.debugStr s) (rt.parseDate s)

/-- The forms with an offset are tried first; a civil time is taken as UTC. -/
def timestamptzOfText (rt : Runtime) (s : String) : Option Int64 :=
  rt.parseRfc3339 s
    <|> ["%Y-%m-%d %H:%M:%S%.f%#z", "%Y-%m-%dT%H:%M:%S%.f%#z", "%Y-%m-%d %H:%M:%S%#z",
      "%Y-%m-%dT%H:%M:%S%#z"].findSome? (rt.parseDateTime s)
    <|> ["%Y-%m-%d %H:%M:%S%.f", "%Y-%m-%dT%H:%M:%S%.f", "%Y-%m-%d %H:%M:%S",
      "%Y-%m-%dT%H:%M:%S"].findSome? (rt.parseNaiveDateTime s)

/-- `parse_timestamptz`: nine formats in turn. -/
def parseTimestamptz (rt : Runtime) (s : String) : Outcome Int64 :=
  let s := trim s
  orTypeError ("invalid TIMESTAMP literal: " ++ rt.debugStr s) (timestamptzOfText rt s)

def timeOfText (rt : Runtime) (s : String) : Option Int64 := do
  let (seconds, nanos) ← rt.parseNaiveTime s "%H:%M:%S%.f" <|> rt.parseNaiveTime s "%H:%M:%S"
  return .ofNat (seconds.toNat * 1000000 + nanos.toNat / 1000)

/-- `parse_time`. -/
def parseTime (rt : Runtime) (s : String) : Outcome Int64 :=
  let s := trim s
  orTypeError ("invalid TIME literal: " ++ rt.debugStr s) (timeOfText rt s)

def intervalOfText (rt : Runtime) (s : String) : Option Interval :=
  rt.intervalFromPostgres s <|> rt.intervalFromSql s <|> rt.intervalFromIso s

/-- `parse_interval`: three notations in turn. -/
def parseInterval (rt : Runtime) (s : String) : Outcome Interval :=
  let s := trim s
  orTypeError ("invalid INTERVAL literal: " ++ rt.debugStr s) (intervalOfText rt s)

/-! ### The targets -/

/-- The error of a cast, with the value. -/
def castErr {α : Type} (rt : Runtime) (v : Value) (target : String) : Outcome α :=
  typeError ("cannot cast " ++ rt.debug v ++ " to " ++ target)

def orCastErr {α : Type} (rt : Runtime) (v : Value) (target : String) : Option α → Outcome α
  | some a => .ok a
  | none => castErr rt v target

/-- `cast_to_i64`: floats and decimals are rounded. -/
def castToI64 (rt : Runtime) (v : Value) : Outcome Int64 :=
  match v with
  | .int16 n => .ok n.toInt64
  | .int32 n => .ok n.toInt64
  | .int64 n => .ok n
  | .bool b => .ok (if b then 1 else 0)
  | .float32 bits => .ok (i64OfF32 (f32Round bits))
  | .float64 bits => .ok (i64OfF64 (f64Round bits))
  | .numeric d => orCastErr rt v "integer" (rt.decimalToI64 (rt.decimalRound d))
  | .text s => orCastErr rt v "integer" (rt.parseI64 (trim s))
  | other => castErr rt other "integer"

/-- `fit_int_cast`: an error outside of the range. -/
def fitIntCast {α : Type} (n : Int64) (tryFrom : Int → Option α) (wrap : α → Value) :
    Outcome Value :=
  match tryFrom n.toInt with
  | some m => .ok (wrap m)
  | none => typeError ("value " ++ toString n.toInt ++ " out of range for target integer")

/-- `cast_to_f64`. -/
def castToF64 (rt : Runtime) (v : Value) : Outcome UInt64 :=
  match v with
  | .int16 n => .ok (f64OfI64 n.toInt64)
  | .int32 n => .ok (f64OfI64 n.toInt64)
  | .int64 n => .ok (f64OfI64 n)
  | .float32 bits => .ok (f64OfF32 bits)
  | .float64 bits => .ok bits
  | .numeric d => orCastErr rt v "float" (rt.decimalToF64 d)
  | .text s => orCastErr rt v "float" (rt.parseF64 (trim s))
  | other => castErr rt other "float"

def castToNumeric (rt : Runtime) (v : Value) : Outcome Value := do
  let d ← match v with
    | .int16 n => pure (Decimal.ofInt64 n.toInt64)
    | .int32 n => pure (Decimal.ofInt64 n.toInt64)
    | .int64 n => pure (Decimal.ofInt64 n)
    | .numeric d => pure d
    | .float32 bits => orCastErr rt v "numeric" (rt.decimalOfF32 bits)
    | .float64 bits => orCastErr rt v "numeric" (rt.decimalOfF64 bits)
    | .text s => orCastErr rt v "numeric" (rt.parseDecimal (trim s))
    | other => castErr rt other "numeric"
  return .numeric d

/-- `cast_to_bool`: an integer is true unless it is 0. -/
def castToBool (rt : Runtime) (v : Value) : Outcome Value :=
  match v with
  | .bool b => .ok (.bool b)
  | .int16 n => .ok (.bool (n != 0))
  | .int32 n => .ok (.bool (n != 0))
  | .int64 n => .ok (.bool (n != 0))
  | .text s =>
    let word := rt.toLowercase (trim s)
    if word ∈ ["true", "t", "yes", "y", "on", "1"] then
      .ok (.bool true)
    else if word ∈ ["false", "f", "no", "n", "off", "0"] then
      .ok (.bool false)
    else
      castErr rt v "boolean"
  | other => castErr rt other "boolean"

/-- A byte with two hexadecimal digits, `{:02x}`. -/
def hex2 (b : UInt8) : String :=
  let digits := Nat.toDigits 16 b.toNat
  String.ofList (List.replicate (2 - digits.length) '0' ++ digits)

/-- `cast_to_text`: the bytes of `BYTEA` in hexadecimal. -/
def castToText (rt : Runtime) : Value → Outcome String
  | .bytes b => .ok ("\\x" ++ String.join (b.map hex2))
  | .json j => .ok j.text
  | other => concatStr rt other

def castToBytes (rt : Runtime) : Value → Outcome Value
  | .bytes b => .ok (.bytes b)
  | .text s => .ok (.bytes (utf8 s))
  | other => castErr rt other "bytes"

def MICROS_PER_DAY : Int := 86400000000

/-- `cast_to_date`: the day of a timestamp. -/
def castToDate (rt : Runtime) : Value → Outcome Value
  | .date days => .ok (.date days)
  | .text s => return .date (← parseDate rt (trim s))
  -- the time of day is dropped, toward earlier days below zero
  | .timestamp micros => .ok (.date (.ofInt (micros.toInt / MICROS_PER_DAY)))
  | other => castErr rt other "date"

/-- Midnight of a date too far from the epoch overflows the multiplication, which
    panics where overflow checks are on. -/
def castToTimestamp (rt : Runtime) : Value → Outcome Value
  | .timestamp micros => .ok (.timestamp micros)
  | .text s => return .timestamp (← parseTimestamptz rt (trim s))
  | .date days =>
    match fitI64 (days.toInt * MICROS_PER_DAY) with
    | some micros => .ok (.timestamp micros)
    | none => panicked "attempt to multiply with overflow"
  | other => castErr rt other "timestamp"

def castToTime (rt : Runtime) : Value → Outcome Value
  | .time micros => .ok (.time micros)
  | .text s => return .time (← parseTime rt (trim s))
  | other => castErr rt other "time"

def castToUuid (rt : Runtime) (v : Value) : Outcome Value :=
  match v with
  | .uuid u => .ok (.uuid u)
  | .text s => return .uuid (← orCastErr rt v "uuid" (rt.parseUuid (trim s)))
  | other => castErr rt other "uuid"

def castToInterval (rt : Runtime) : Value → Outcome Value
  | .interval i => .ok (.interval i)
  | .text s => return .interval (← parseInterval rt (trim s))
  | other => castErr rt other "interval"

/-- `cast_to_json`. -/
def castToJson (rt : Runtime) (v : Value) : Outcome Value :=
  match v with
  | .json j => .ok (.json j)
  | .text s => return .json (← orCastErr rt v "json" (rt.parseJson s))
  | other => castErr rt other "json"

/-- `eval_cast`. -/
def evalCast (rt : Runtime) (v : Value) (target : LogicalType) : Outcome Value :=
  if v.isNull then
    .ok .null
  else
    match target with
    | .bool => castToBool rt v
    | .int16 => do fitIntCast (← castToI64 rt v) fitI16 .int16
    | .int32 => do fitIntCast (← castToI64 rt v) fitI32 .int32
    | .int64 => return .int64 (← castToI64 rt v)
    | .float32 => return .float32 (rt.f32OfF64 (← castToF64 rt v))
    | .float64 => return .float64 (← castToF64 rt v)
    | .numeric => castToNumeric rt v
    | .text => return .text (← castToText rt v)
    | .bytes => castToBytes rt v
    | .date => castToDate rt v
    | .timestamp => castToTimestamp rt v
    | .time => castToTime rt v
    | .uuid => castToUuid rt v
    | .interval => castToInterval rt v
    | .json => castToJson rt v
    | .array _ =>
      match v with
      | .array items => .ok (.array items)
      | other => castErr rt other "array"

end StrataDb.Sql
