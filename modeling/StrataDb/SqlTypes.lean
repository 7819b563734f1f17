import Mathlib.Data.List.DropRight
import StrataDb.FloatBits
import StrataDb.LexOrder
import StrataDb.SerdeJson
import StrataDb.StorageError

/-!
# Logical types and runtime values (`storage/types.rs`), and what the crates below compute

A float is its bit pattern, a `rust_decimal` number a sign, a mantissa below `2 ^ 96` and a scale
of at most 28. Floating-point arithmetic, the remaining decimal arithmetic and the parsers and
printers of the crates are the fields of `Runtime`, over which everything that uses them is
stated.
-/

namespace StrataDb.Sql

open ByteCodec FloatBits LexOrder
open Store (StorageError)

/-! ### Types and values -/

inductive LogicalType where
  | bool
  | int16
  | int32
  | int64
  | text
  | bytes
  | json
  | date
  | timestamp
  | float32
  | float64
  | numeric
  | time
  | uuid
  | interval
  | array (element : LogicalType)
deriving DecidableEq, Repr

structure Interval where
  months : Int32
  days : Int32
  micros : Int64
deriving DecidableEq

/-- The length of an interval, with 30-day months and 24-hour days.  The source
    computes it in `i128`, which holds every result (`toMicros_bounds`). -/
def Interval.toMicros (i : Interval) : Int :=
  let day := 86400000000
  i.months.toInt * 30 * day + i.days.toInt * day + i.micros.toInt

theorem Interval.toMicros_bounds (i : Interval) : -2 ^ 127 ≤ i.toMicros ∧ i.toMicros < 2 ^ 127 := by
  have hmonths := (⟨i.months.le_toInt, i.months.toInt_lt⟩ : _ ∧ _)
  have hdays := (⟨i.days.le_toInt, i.days.toInt_lt⟩ : _ ∧ _)
  have hmicros := (⟨i.micros.le_toInt, i.micros.toInt_lt⟩ : _ ∧ _)
  simp only [Interval.toMicros]
  omega

structure Decimal where
  negative : Bool
  mantissa : Nat
  scale : Nat
  mantissa_lt : mantissa < 2 ^ 96
  scale_le : scale ≤ 28
deriving DecidableEq

structure Uuid where
  bytes : Bytes
  length_eq : bytes.length = 16
deriving DecidableEq

theorem Uuid.bytes_inj {a b : Uuid} : a.bytes = b.bytes ↔ a = b := by
  cases a
  cases b
  simp only [Uuid.mk.injEq]

/-- A `serde_json` value. -/
abbrev Json := SerdeJson.Doc SerdeJson.Numeral

inductive Value where
  | null
  | bool (b : Bool)
  | int16 (n : Int16)
  | int32 (n : Int32)
  | int64 (n : Int64)
  | text (s : String)
  | bytes (b : Bytes)
  | json (j : Json)
  | date (days : Int32)
  | timestamp (micros : Int64)
  | float32 (bits : UInt32)
  | float64 (bits : UInt64)
  | numeric (d : Decimal)
  | time (micros : Int64)
  | uuid (u : Uuid)
  | interval (i : Interval)
  | array (items : List Value)

abbrev Tuple := List Value

def utf8 (s : String) : Bytes :=
  s.toByteArray.data.toList

theorem utf8_inj {s t : String} : utf8 s = utf8 t ↔ s = t := by
  refine ⟨fun h => ?_, fun h => by rw [h]⟩
  have harr : s.toByteArray.data = t.toByteArray.data := Array.toList_inj.mp h
  exact String.toByteArray_inj.mp (ByteArray.ext harr)

mutual

/-- A value of type `ty`, with no `NULL` inside. -/
def Value.hasType : Value → LogicalType → Bool
  | .bool _, .bool | .int16 _, .int16 | .int32 _, .int32 | .int64 _, .int64
  | .text _, .text | .bytes _, .bytes | .json _, .json | .date _, .date
  | .timestamp _, .timestamp | .float32 _, .float32 | .float64 _, .float64
  | .numeric _, .numeric | .time _, .time | .uuid _, .uuid | .interval _, .interval => true
  | .array items, .array element => allHaveType items element
  | _, _ => false

def allHaveType : List Value → LogicalType → Bool
  | [], _ => true
  | v :: vs, ty => v.hasType ty && allHaveType vs ty

end

theorem allHaveType_iff {vs : List Value} {ty : LogicalType} :
    allHaveType vs ty = true ↔ ∀ v ∈ vs, v.hasType ty = true := by
  induction vs with
  | nil => simp [allHaveType]
  | cons v vs ih => simp [allHaveType, ih]

def Value.isNull : Value → Bool
  | .null => true
  | _ => false

def Value.fits (v : Value) (ty : LogicalType) : Bool :=
  v.isNull || v.hasType ty

theorem isNull_of_hasType {v : Value} {ty : LogicalType} (h : v.hasType ty = true) :
    v.isNull = false := by
  cases v <;> first | rfl | cases ty <;> cases h

/-! ### Decimals -/

namespace Decimal

def isZero (d : Decimal) : Bool :=
  d.mantissa == 0

def signed (d : Decimal) : Int :=
  if d.negative then -d.mantissa else d.mantissa

def compare (a b : Decimal) : Ordering :=
  order (a.signed * 10 ^ b.scale) (b.signed * 10 ^ a.scale)

/-- Take the zeros off the end of `scale` fractional digits: what is left of the
    mantissa and of the scale. -/
def stripZeros : Nat → Nat → Nat × Nat
  | m, 0 => (m, 0)
  | m, s + 1 => if m % 10 = 0 then stripZeros (m / 10) s else (m, s + 1)

theorem stripZeros_scale_le (m s : Nat) : (stripZeros m s).2 ≤ s := by
  induction s generalizing m with
  | zero => exact Nat.le_refl 0
  | succ s ih =>
    rw [stripZeros]
    split
    · exact Nat.le_succ_of_le (ih _)
    · exact Nat.le_refl _

theorem stripZeros_mul (m s : Nat) : (stripZeros m s).1 * 10 ^ (s - (stripZeros m s).2) = m := by
  induction s generalizing m with
  | zero => simp [stripZeros]
  | succ s ih =>
    rw [stripZeros]
    split
    · have hle := stripZeros_scale_le (m / 10) s
      rw [Nat.succ_sub hle, pow_succ, ← mul_assoc, ih]
      omega
    · simp

theorem stripZeros_last (m s : Nat) : (stripZeros m s).2 = 0 ∨ (stripZeros m s).1 % 10 ≠ 0 := by
  induction s generalizing m with
  | zero => exact Or.inl rfl
  | succ s ih =>
    rw [stripZeros]
    split
    · exact ih _
    · exact Or.inr ‹_›

theorem stripZeros_le (m s : Nat) : (stripZeros m s).1 ≤ m := by
  conv_rhs => rw [← stripZeros_mul m s]
  exact Nat.le_mul_of_pos_right _ (Nat.pow_pos (by omega))

/-- `Decimal::normalize`: the trailing zeros of the fraction are stripped. -/
def normalize (d : Decimal) : Decimal where
  negative := d.negative
  mantissa := (stripZeros d.mantissa d.scale).1
  scale := (stripZeros d.mantissa d.scale).2
  mantissa_lt := Nat.lt_of_le_of_lt (stripZeros_le _ _) d.mantissa_lt
  scale_le := Nat.le_trans (stripZeros_scale_le _ _) d.scale_le

def abs (d : Decimal) : Decimal :=
  { d with negative := false }

def neg (d : Decimal) : Decimal :=
  { d with negative := !d.negative }

def ofInt64 (n : Int64) : Decimal where
  negative := n.toInt < 0
  mantissa := n.toInt.natAbs
  scale := 0
  mantissa_lt := by
    have hlo := n.le_toInt
    have hhi := n.toInt_lt
    omega
  scale_le := Nat.zero_le _

theorem signed_ofInt64 (n : Int64) : (ofInt64 n).signed = n.toInt := by
  simp only [signed, ofInt64]
  by_cases hn : n.toInt < 0
  · simp only [hn, decide_true, if_true]
    omega
  · simp only [hn, decide_false]
    simp only [Bool.false_eq_true, if_false]
    omega

end Decimal

/-! ### Errors -/

inductive DecodeError where
  | unexpectedEof
  | invalidBool (byte : UInt8)
  | invalidUtf8
  | invalidJson
  | trailingBytes
deriving DecidableEq, Repr

inductive KeyEncodeError where
  | nullKey
deriving DecidableEq, Repr

inductive CodecError where
  | decode (e : DecodeError)
  | serde (msg : String)
deriving DecidableEq, Repr

inductive ResourceKind where
  | project
  | dataset
  | table
deriving DecidableEq, Repr

inductive CatalogError where
  | notFound (kind : ResourceKind) (name : String)
  | alreadyExists (kind : ResourceKind) (name : String)
  | truncationExhausted (name : String)
deriving DecidableEq, Repr

inductive QueryError where
  | catalog (e : CatalogError)
  | storage (e : StorageError)
  | codec (e : CodecError)
  | parse (msg : String)
  | unsupported (msg : String)
  | type (msg : String)
  | internal (msg : String)
deriving DecidableEq, Repr

def QueryError.ofKeyEncode : KeyEncodeError → QueryError
  | .nullKey => .internal "primary key cannot be null"

def QueryError.ofDecode (e : DecodeError) : QueryError :=
  .codec (.decode e)

/-- How a computation of the query layer ends that does not return a value. -/
inductive Fault where
  | error (e : QueryError)
  | panicked (msg : String)
deriving DecidableEq, Repr

abbrev Outcome := Except Fault

def typeError {α : Type} (msg : String) : Outcome α :=
  .error (.error (.type msg))

def internalError {α : Type} (msg : String) : Outcome α :=
  .error (.error (.internal msg))

def panicked {α : Type} (msg : String) : Outcome α :=
  .error (.panicked msg)

/-- The computation ends with a value or an error, not with a panic. -/
def NoPanic {α : Type} (x : Outcome α) : Prop :=
  ∀ msg, x ≠ .error (.panicked msg)

/-! ### What the standard library computes -/

/-- `char::is_whitespace`. -/
def isWhitespace (c : Char) : Bool :=
  let n := c.toNat
  (9 ≤ n && n ≤ 13) || n == 32 || n == 0x85 || n == 0xa0 || n == 0x1680 ||
    (0x2000 ≤ n && n ≤ 0x200a)
    || n == 0x2028 || n == 0x2029 || n == 0x202f || n == 0x205f || n == 0x3000

/-- `str::trim`. -/
def trim (s : String) : String :=
  String.ofList ((s.toList.dropWhile isWhitespace).rdropWhile isWhitespace)

/-- `i64 as f64`. -/
def f64OfI64 (n : Int64) : UInt64 :=
  ⟨word 63 (n < 0) (nearestPlace 52 (n.toInt.natAbs * 2 ^ 1074))⟩

/-- The magnitude of a `f32` as a `f64`.  A NaN becomes a quiet one. -/
def widenPlace (n : Nat) : Nat :=
  if n < 255 * 2 ^ 23 then
    floorPlace 52 (units 23 n * 2 ^ 925)
  else if n = 255 * 2 ^ 23 then
    2047 * 2 ^ 52
  else
    2047 * 2 ^ 52 + 2 ^ 51 + n % 2 ^ 22 * 2 ^ 29

/-- `f32 as f64`. -/
def f64OfF32 (bits : UInt32) : UInt64 :=
  ⟨word 63 (2 ^ 31 ≤ bits.toNat) (widenPlace (bits.toNat % 2 ^ 31))⟩

/-- `f32::round`. -/
def f32Round (bits : UInt32) : UInt32 :=
  ⟨word 31 (2 ^ 31 ≤ bits.toNat) (roundPlace 23 149 (bits.toNat % 2 ^ 31))⟩

/-- `f64::round`. -/
def f64Round (bits : UInt64) : UInt64 :=
  ⟨word 63 (2 ^ 63 ≤ bits.toNat) (roundPlace 52 1074 (bits.toNat % 2 ^ 63))⟩

def saturate (n : Int) : Int64 :=
  .ofInt (max (-2 ^ 63) (min n (2 ^ 63 - 1)))

/-- `as i64`: the fraction is dropped, a number outside of the range becomes its end, and
    a NaN zero. -/
def truncI64 {k : Nat} (p scale : Nat) (bits : BitVec (k + 1)) : Int64 :=
  let n := bits.toNat % 2 ^ k
  if infinity k p < n then
    0
  else
    saturate (if bits.toNat < 2 ^ k then wholePart p scale n else -wholePart p scale n)

def i64OfF32 (bits : UInt32) : Int64 := truncI64 23 149 bits.toBitVec

def i64OfF64 (bits : UInt64) : Int64 := truncI64 52 1074 bits.toBitVec

/-! ### What the crates compute -/

/-- The functions of the standard library and of the crates the query layer calls.
    A parser gives `none` on text it rejects, a checked operation on overflow, and a
    date or timestamp printer outside the range of dates `chrono` has.  A parser of
    `chrono` takes a text and a format; of a timestamp it gives the microseconds, of a
    time the seconds since midnight and the nanoseconds. -/
structure Runtime where
  debug : Value → String
  debugStr : String → String
  -- `str`
  toLowercase : String → String
  toUppercase : String → String
  parseI64 : String → Option Int64
  -- `f32` and `f64`, by bit patterns
  f32OfF64 : UInt64 → UInt32
  f64Add : UInt64 → UInt64 → UInt64
  f64Sub : UInt64 → UInt64 → UInt64
  f64Mul : UInt64 → UInt64 → UInt64
  f64Div : UInt64 → UInt64 → UInt64
  f64Ceil : UInt64 → UInt64
  f64Floor : UInt64 → UInt64
  f32ToString : UInt32 → String
  f64ToString : UInt64 → String
  parseF64 : String → Option UInt64
  -- `rust_decimal`
  decimalAdd : Decimal → Decimal → Option Decimal
  decimalSub : Decimal → Decimal → Option Decimal
  decimalMul : Decimal → Decimal → Option Decimal
  decimalDiv : Decimal → Decimal → Option Decimal
  decimalRem : Decimal → Decimal → Option Decimal
  decimalCeil : Decimal → Decimal
  decimalFloor : Decimal → Decimal
  decimalRound : Decimal → Decimal
  decimalToI64 : Decimal → Option Int64
  decimalToF32 : Decimal → Option UInt32
  decimalToF64 : Decimal → Option UInt64
  decimalOfF32 : UInt32 → Option Decimal
  decimalOfF64 : UInt64 → Option Decimal
  decimalToString : Decimal → String
  parseDecimal : String → Option Decimal
  decimalSerialize : Decimal → Bytes
  decimalDeserialize : Bytes → Decimal
  -- `chrono`, `pg_interval`, `uuid`
  parseDate : String → Option Int32
  dateToString : Int32 → Option String
  parseRfc3339 : String → Option Int64
  parseDateTime : String → String → Option Int64
  parseNaiveDateTime : String → String → Option Int64
  timestamptzToString : Int64 → Option String
  parseNaiveTime : String → String → Option (UInt32 × UInt32)
  intervalFromPostgres : String → Option Interval
  intervalFromSql : String → Option Interval
  intervalFromIso : String → Option Interval
  intervalToString : Interval → String
  parseUuid : String → Option Uuid
  uuidToString : Uuid → String
  -- `serde_json`
  parseJson : String → Option Json

def Decimal.pack (d : Decimal) : Bytes :=
  (if d.negative then 1 else 0) :: UInt8.ofNat d.scale :: beBytes 14 d.mantissa

def Decimal.unpack (bs : Bytes) : Decimal where
  negative := bs[0]? == some 1
  mantissa := beNat (bs.drop 2) % 2 ^ 96
  scale := min 28 (bs[1]?.getD 0).toNat
  mantissa_lt := Nat.mod_lt _ (Nat.pow_pos (by omega))
  scale_le := Nat.min_le_left _ _

theorem Decimal.unpack_pack (d : Decimal) : unpack d.pack = d := by
  obtain ⟨negative, mantissa, scale, hm, hs⟩ := d
  have hmantissa : beNat (beBytes 14 mantissa) % 2 ^ 96 = mantissa := by
    rw [beNat_beBytes_of_lt (Nat.lt_trans hm (by norm_num)), Nat.mod_eq_of_lt hm]
  have hscale : min 28 (UInt8.ofNat scale).toNat = scale := by
    rw [UInt8.toNat_ofNat_of_lt' (by simp only [UInt8.size]; omega)]
    omega
  have hsign : (some (if negative then (1 : UInt8) else 0) == some 1) = negative := by
    cases negative <;> rfl
  exact (Decimal.mk.injEq ..).mpr ⟨hsign, hmantissa, hscale⟩

/-- A runtime to run the model on: decimals are packed, the only JSON texts are numbers,
    other texts do not parse, arithmetic overflows. -/
instance : Inhabited Runtime where
  default :=
    { debug := fun _ => "", debugStr := id, toLowercase := id, toUppercase := id
      parseI64 := fun _ => none, f32OfF64 := fun b => b.toUInt32
      f64Add := fun a _ => a, f64Sub := fun a _ => a, f64Mul := fun a _ => a
      f64Div := fun a _ => a, f64Ceil := id, f64Floor := id
      f32ToString := fun _ => "", f64ToString := fun _ => "", parseF64 := fun _ => none
      decimalAdd := fun _ _ => none, decimalSub := fun _ _ => none
      decimalMul := fun _ _ => none, decimalDiv := fun _ _ => none
      decimalRem := fun _ _ => none, decimalCeil := id, decimalFloor := id
      decimalRound := id, decimalToI64 := fun _ => none, decimalToF32 := fun _ => none
      decimalToF64 := fun _ => none
      decimalOfF32 := fun _ => none, decimalOfF64 := fun _ => none
      decimalToString := fun _ => "", parseDecimal := fun _ => none
      decimalSerialize := Decimal.pack, decimalDeserialize := Decimal.unpack
      parseDate := fun _ => none, dateToString := fun _ => none
      parseRfc3339 := fun _ => none, parseDateTime := fun _ _ => none
      parseNaiveDateTime := fun _ _ => none, timestamptzToString := fun _ => none
      parseNaiveTime := fun _ _ => none, intervalFromPostgres := fun _ => none
      intervalFromSql := fun _ => none, intervalFromIso := fun _ => none
      intervalToString := fun _ => "", parseUuid := fun _ => none, uuidToString := fun _ => ""
      parseJson := fun s => (SerdeJson.Numeral.ofText s).map .number }

end StrataDb.Sql
