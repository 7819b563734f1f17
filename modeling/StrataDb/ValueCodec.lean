import StrataDb.Runs
import StrataDb.SqlTypes

/-!
# Values in a row (`crates/strata-db/src/storage/codec`: `ValueCodec`, `Value::encode`, `decode`)

Numbers take a fixed number of little-endian bytes; a text, byte string or JSON text has its
length before it and an array its count, in four bytes each, so a value reads back only below `2 ^
32` (`Value.Fits`).
-/

namespace StrataDb.Sql

open ByteCodec
open Runs (bind_eq_ok)
open Decoder.Reads (bind_pure)

def leBytes (w n : Nat) : Bytes :=
  (beBytes w n).reverse

def leNat (bs : Bytes) : Nat :=
  beNat bs.reverse

@[simp] theorem length_leBytes (w n : Nat) : (leBytes w n).length = w := by
  rw [leBytes, List.length_reverse, length_beBytes]

theorem leNat_leBytes (w n : Nat) : leNat (leBytes w n) = n % 256 ^ w := by
  rw [leNat, leBytes, List.reverse_reverse, beNat_beBytes]

/-! ### The encoding -/

mutual

/-- The bytes `encode` appends; none for `NULL`. -/
def Value.encodedSize : Value → Nat
  | .null => 0
  | .bool _ => 1
  | .int16 _ => 2
  | .int32 _ | .date _ | .float32 _ => 4
  | .int64 _ | .timestamp _ | .float64 _ | .time _ => 8
  | .text s => 4 + (utf8 s).length
  | .bytes b => 4 + b.length
  | .json j => 4 + (utf8 j.text).length
  | .numeric _ | .uuid _ | .interval _ => 16
  | .array items => 4 + encodedSizes items

def encodedSizes : List Value → Nat
  | [] => 0
  | v :: vs => v.encodedSize + encodedSizes vs

end

def lengthPrefixed (bs : Bytes) : Bytes :=
  leBytes 4 bs.length ++ bs

mutual

def Value.encode (rt : Runtime) : Value → Outcome Bytes
  | .null =>
    panicked ("internal error: entered unreachable code: Value::encode called on Null; "
      ++ "caller must handle via the bitmap")
  | .bool b => .ok [if b then 1 else 0]
  | .int16 n => .ok (leBytes 2 n.toUInt16.toNat)
  | .int32 n => .ok (leBytes 4 n.toUInt32.toNat)
  | .int64 n => .ok (leBytes 8 n.toUInt64.toNat)
  | .text s => .ok (lengthPrefixed (utf8 s))
  | .bytes b => .ok (lengthPrefixed b)
  | .json j => .ok (lengthPrefixed (utf8 j.text))
  | .date days => .ok (leBytes 4 days.toUInt32.toNat)
  | .timestamp micros => .ok (leBytes 8 micros.toUInt64.toNat)
  | .float32 bits => .ok (leBytes 4 bits.toNat)
  | .float64 bits => .ok (leBytes 8 bits.toNat)
  | .numeric d => .ok (rt.decimalSerialize d)
  | .time micros => .ok (leBytes 8 micros.toUInt64.toNat)
  | .uuid u => .ok u.bytes
  | .interval i =>
    .ok (leBytes 4 i.months.toUInt32.toNat
      ++ (leBytes 4 i.days.toUInt32.toNat ++ leBytes 8 i.micros.toUInt64.toNat))
  | .array items => do
    let bs ← encodeAll rt items
    return leBytes 4 items.length ++ bs

def encodeAll (rt : Runtime) : List Value → Outcome Bytes
  | [] => .ok []
  | v :: vs => do
    let bs ← v.encode rt
    let bss ← encodeAll rt vs
    return bs ++ bss

end

/-! ### Decoding -/

abbrev ValueDecoder := Decoder DecodeError

def take (n : Nat) : ValueDecoder Bytes :=
  Decoder.take .unexpectedEof n

def decodeBool : ValueDecoder Bool := do
  let bs ← take 1
  match bs with
  | [0] => pure false
  | [1] => pure true
  | other => Decoder.fail (.invalidBool (other.headD 0))

def decodeU32 : ValueDecoder UInt32 := do return UInt32.ofNat (leNat (← take 4))
def decodeU64 : ValueDecoder UInt64 := do return UInt64.ofNat (leNat (← take 8))
def decodeI16 : ValueDecoder Int16 := do return (UInt16.ofNat (leNat (← take 2))).toInt16
def decodeI32 : ValueDecoder Int32 := do return (← decodeU32).toInt32
def decodeI64 : ValueDecoder Int64 := do return (← decodeU64).toInt64

def decodePrefixed : ValueDecoder Bytes := do
  let len ← decodeU32
  take len.toNat

def fromUtf8 (bs : Bytes) : Option String :=
  String.fromUTF8? ⟨bs.toArray⟩

def orFail {α : Type} (e : DecodeError) : Option α → ValueDecoder α
  | some a => pure a
  | none => Decoder.fail e

def decodeText : ValueDecoder String := do
  orFail .invalidUtf8 (fromUtf8 (← decodePrefixed))

def decodeJson (rt : Runtime) : ValueDecoder Json := do
  orFail .invalidJson ((fromUtf8 (← decodePrefixed)).bind rt.parseJson)

def Uuid.ofBytes (bs : Bytes) : Option Uuid :=
  if h : bs.length = 16 then some ⟨bs, h⟩ else none

def decodeUuid : ValueDecoder Uuid := do
  orFail .unexpectedEof (Uuid.ofBytes (← take 16))

def decodeInterval : ValueDecoder Interval := do
  let months ← decodeI32
  let days ← decodeI32
  let micros ← decodeI64
  return { months, days, micros }

def Value.decode (rt : Runtime) : LogicalType → ValueDecoder Value
  | .bool => do return .bool (← decodeBool)
  | .int16 => do return .int16 (← decodeI16)
  | .int32 => do return .int32 (← decodeI32)
  | .int64 => do return .int64 (← decodeI64)
  | .text => do return .text (← decodeText)
  | .bytes => do return .bytes (← decodePrefixed)
  | .json => do return .json (← decodeJson rt)
  | .date => do return .date (← decodeI32)
  | .timestamp => do return .timestamp (← decodeI64)
  | .float32 => do return .float32 (← decodeU32)
  | .float64 => do return .float64 (← decodeU64)
  | .numeric => do return .numeric (rt.decimalDeserialize (← take 16))
  | .time => do return .time (← decodeI64)
  | .uuid => do return .uuid (← decodeUuid)
  | .interval => do return .interval (← decodeInterval)
  | .array element => do
    let count ← decodeU32
    return .array (← Decoder.times count.toNat (Value.decode rt element))

/-! ### Round trips -/

/-- What `rust_decimal` promises of the form it reads and writes. -/
structure Runtime.CodecLaws (rt : Runtime) : Prop where
  length_decimalSerialize : ∀ d, (rt.decimalSerialize d).length = 16
  decimalDeserialize_serialize : ∀ d, rt.decimalDeserialize (rt.decimalSerialize d) = d

theorem codecLaws_default : (default : Runtime).CodecLaws where
  length_decimalSerialize d := congrArg (· + 2) (length_beBytes 14 d.mantissa)
  decimalDeserialize_serialize := Decimal.unpack_pack

mutual

/-- Every length and count inside is below `2 ^ 32`. -/
def Value.Fits : Value → Prop
  | .text s => (utf8 s).length < 2 ^ 32
  | .bytes b => b.length < 2 ^ 32
  | .json j => (utf8 j.text).length < 2 ^ 32
  | .array items => items.length < 2 ^ 32 ∧ AllFit items
  | _ => True

def AllFit : List Value → Prop
  | [] => True
  | v :: vs => v.Fits ∧ AllFit vs

end

mutual

/-- Every JSON document inside is read from its own text. -/
def Value.Rereads (rt : Runtime) : Value → Prop
  | .json j => rt.parseJson j.text = some j
  | .array items => AllReread rt items
  | _ => True

def AllReread (rt : Runtime) : List Value → Prop
  | [] => True
  | v :: vs => v.Rereads rt ∧ AllReread rt vs

end

theorem encodedSize_pos {v : Value} {ty : LogicalType} (h : v.hasType ty = true) :
    0 < v.encodedSize := by
  cases v with
  | null => cases ty <;> cases h
  | _ => simp [Value.encodedSize]

theorem length_le_encodedSizes {vs : List Value} {ty : LogicalType} (h : allHaveType vs ty = true) :
    vs.length ≤ encodedSizes vs := by
  induction vs with
  | nil => exact Nat.le_refl 0
  | cons v vs ih =>
    obtain ⟨hv, hvs⟩ := Bool.and_eq_true_iff.mp h
    have hpos := encodedSize_pos hv
    have hrest := ih hvs
    rw [List.length_cons, encodedSizes]
    omega

mutual

theorem fits_of_encodedSize : ∀ (v : Value) (ty : LogicalType), v.hasType ty = true →
    v.encodedSize < 2 ^ 32 → v.Fits
  | .text _, _, _, h => Nat.lt_of_le_of_lt (Nat.le_add_left _ 4) h
  | .bytes _, _, _, h => Nat.lt_of_le_of_lt (Nat.le_add_left _ 4) h
  | .json _, _, _, h => Nat.lt_of_le_of_lt (Nat.le_add_left _ 4) h
  | .array items, .array element, hty, h => by
    have hsizes : encodedSizes items < 2 ^ 32 := Nat.lt_of_le_of_lt (Nat.le_add_left _ 4) h
    exact ⟨Nat.lt_of_le_of_lt (length_le_encodedSizes hty) hsizes,
      allFit_of_encodedSizes items element hty hsizes⟩
  | .array _, .bool, hty, _ | .array _, .int16, hty, _ | .array _, .int32, hty, _
  | .array _, .int64, hty, _ | .array _, .text, hty, _ | .array _, .bytes, hty, _
  | .array _, .json, hty, _ | .array _, .date, hty, _ | .array _, .timestamp, hty, _
  | .array _, .float32, hty, _ | .array _, .float64, hty, _ | .array _, .numeric, hty, _
  | .array _, .time, hty, _ | .array _, .uuid, hty, _ | .array _, .interval, hty, _ => by cases hty
  | .null, _, _, _ | .bool _, _, _, _ | .int16 _, _, _, _ | .int32 _, _, _, _ | .int64 _, _, _, _
  | .date _, _, _, _ | .timestamp _, _, _, _ | .float32 _, _, _, _ | .float64 _, _, _, _
  | .numeric _, _, _, _ | .time _, _, _, _ | .uuid _, _, _, _ | .interval _, _, _, _ => trivial

theorem allFit_of_encodedSizes : ∀ (vs : List Value) (ty : LogicalType), allHaveType vs ty = true →
    encodedSizes vs < 2 ^ 32 → AllFit vs
  | [], _, _, _ => trivial
  | v :: vs, ty, hty, h => by
    obtain ⟨hv, hvs⟩ := Bool.and_eq_true_iff.mp hty
    rw [encodedSizes] at h
    exact ⟨fits_of_encodedSize v ty hv (by omega), allFit_of_encodedSizes vs ty hvs (by omega)⟩

end

section RoundTrips

open Decoder (Reads)

theorem reads_word {α : Type} (w : Nat) (n : Nat) (g : Nat → α) (hn : n < 256 ^ w) :
    Reads (do return g (leNat (← take w)) : ValueDecoder α) (leBytes w n) (g n) := by
  have h := bind_pure (g := fun bs => g (leNat bs))
    (Decoder.reads_take DecodeError.unexpectedEof (length_leBytes w n))
  rwa [leNat_leBytes, Nat.mod_eq_of_lt hn] at h

theorem reads_u32 (n : UInt32) : Reads decodeU32 (leBytes 4 n.toNat) n := by
  have h := reads_word 4 n.toNat UInt32.ofNat n.toNat_lt
  rwa [UInt32.ofNat_toNat] at h

theorem reads_u64 (n : UInt64) : Reads decodeU64 (leBytes 8 n.toNat) n := by
  have h := reads_word 8 n.toNat UInt64.ofNat n.toNat_lt
  rwa [UInt64.ofNat_toNat] at h

theorem reads_i16 (n : Int16) : Reads decodeI16 (leBytes 2 n.toUInt16.toNat) n := by
  have h := reads_word 2 n.toUInt16.toNat (fun m => (UInt16.ofNat m).toInt16) n.toUInt16.toNat_lt
  rwa [UInt16.ofNat_toNat, Int16.toInt16_toUInt16] at h

theorem reads_i32 (n : Int32) : Reads decodeI32 (leBytes 4 n.toUInt32.toNat) n := by
  have h := bind_pure (g := UInt32.toInt32) (reads_u32 n.toUInt32)
  rwa [Int32.toInt32_toUInt32] at h

theorem reads_i64 (n : Int64) : Reads decodeI64 (leBytes 8 n.toUInt64.toNat) n := by
  have h := bind_pure (g := UInt64.toInt64) (reads_u64 n.toUInt64)
  rwa [Int64.toInt64_toUInt64] at h

theorem reads_bool (b : Bool) : Reads decodeBool [if b then 1 else 0] b := by
  intro rest
  cases b <;> rfl

theorem reads_prefixed {bs : Bytes} (h : bs.length < 2 ^ 32) :
    Reads decodePrefixed (lengthPrefixed bs) bs := by
  have hlen : (UInt32.ofNat bs.length).toNat = bs.length := UInt32.toNat_ofNat_of_lt' h
  have hread := reads_u32 (UInt32.ofNat bs.length)
  rw [hlen] at hread
  exact hread.bind (Decoder.reads_take _ hlen.symm)

theorem fromUtf8_utf8 (s : String) : fromUtf8 (utf8 s) = some s := by
  have harr : (⟨(utf8 s).toArray⟩ : ByteArray) = s.toByteArray := by
    refine ByteArray.ext ?_
    simp [utf8]
  rw [fromUtf8, harr, String.fromUTF8?, dif_pos s.isValidUTF8]
  rfl

theorem reads_orFail {α : Type} {d : ValueDecoder Bytes} {e : DecodeError} {p : Bytes → Option α}
    {bs payload : Bytes} {a : α} (h : Reads d bs payload) (hparse : p payload = some a) :
    Reads (d >>= fun payload => orFail e (p payload)) bs a := by
  have hcheck : Reads (orFail e (p payload)) [] a := by
    rw [hparse]
    exact Decoder.Reads.pure a
  simpa using h.bind (f := fun payload => orFail e (p payload)) hcheck

theorem reads_text {s : String} (h : (utf8 s).length < 2 ^ 32) :
    Reads decodeText (lengthPrefixed (utf8 s)) s :=
  reads_orFail (p := fromUtf8) (reads_prefixed h) (fromUtf8_utf8 s)

theorem reads_json {rt : Runtime} {j : Json} (h : (utf8 j.text).length < 2 ^ 32)
    (hread : rt.parseJson j.text = some j) :
    Reads (decodeJson rt) (lengthPrefixed (utf8 j.text)) j := by
  refine reads_orFail (p := fun bs => (fromUtf8 bs).bind rt.parseJson) (reads_prefixed h) ?_
  rw [fromUtf8_utf8, Option.bind_some, hread]

theorem reads_uuid (u : Uuid) : Reads decodeUuid u.bytes u :=
  reads_orFail (p := Uuid.ofBytes) (Decoder.reads_take _ u.length_eq) (dif_pos u.length_eq)

theorem reads_interval (i : Interval) :
    Reads decodeInterval (leBytes 4 i.months.toUInt32.toNat
      ++ (leBytes 4 i.days.toUInt32.toNat ++ leBytes 8 i.micros.toUInt64.toNat)) i :=
  (reads_i32 i.months).bind ((reads_i32 i.days).bind (bind_pure (reads_i64 i.micros)))

section Values

variable {rt : Runtime}

mutual

/-- **A typed value is encoded, in as many bytes as announced.** -/
theorem encode_ok (laws : rt.CodecLaws) : ∀ (v : Value) (ty : LogicalType), v.hasType ty = true →
    ∃ bs, v.encode rt = .ok bs ∧ bs.length = v.encodedSize
  | .null, ty, h => by cases ty <;> cases h
  | .bool _, _, _ => ⟨_, rfl, rfl⟩
  | .int16 _, _, _ => ⟨_, rfl, length_leBytes 2 _⟩
  | .int32 _, _, _ => ⟨_, rfl, length_leBytes 4 _⟩
  | .int64 _, _, _ => ⟨_, rfl, length_leBytes 8 _⟩
  | .text _, _, _ => ⟨_, rfl, by rw [lengthPrefixed, List.length_append, length_leBytes]; rfl⟩
  | .bytes _, _, _ => ⟨_, rfl, by rw [lengthPrefixed, List.length_append, length_leBytes]; rfl⟩
  | .json _, _, _ => ⟨_, rfl, by rw [lengthPrefixed, List.length_append, length_leBytes]; rfl⟩
  | .date _, _, _ => ⟨_, rfl, length_leBytes 4 _⟩
  | .timestamp _, _, _ => ⟨_, rfl, length_leBytes 8 _⟩
  | .float32 _, _, _ => ⟨_, rfl, length_leBytes 4 _⟩
  | .float64 _, _, _ => ⟨_, rfl, length_leBytes 8 _⟩
  | .numeric d, _, _ => ⟨_, rfl, laws.length_decimalSerialize d⟩
  | .time _, _, _ => ⟨_, rfl, length_leBytes 8 _⟩
  | .uuid u, _, _ => ⟨_, rfl, u.length_eq⟩
  | .interval _, _, _ => ⟨_, rfl, by simp only [List.length_append, length_leBytes]; rfl⟩
  | .array items, .array element, h => by
    obtain ⟨bs, hbs, hlen⟩ := encodeAll_ok laws items element h
    refine ⟨leBytes 4 items.length ++ bs, by rw [Value.encode, hbs]; rfl, ?_⟩
    rw [List.length_append, length_leBytes, hlen]
    rfl

theorem encodeAll_ok (laws : rt.CodecLaws) : ∀ (vs : List Value) (ty : LogicalType),
    allHaveType vs ty = true → ∃ bs, encodeAll rt vs = .ok bs ∧ bs.length = encodedSizes vs
  | [], _, _ => ⟨[], rfl, rfl⟩
  | v :: vs, ty, h => by
    rw [allHaveType, Bool.and_eq_true] at h
    obtain ⟨bs, hbs, hlen⟩ := encode_ok laws v ty h.1
    obtain ⟨bss, hbss, hlens⟩ := encodeAll_ok laws vs ty h.2
    refine ⟨bs ++ bss, by rw [encodeAll, hbs, hbss]; rfl, ?_⟩
    rw [List.length_append, hlen, hlens, encodedSizes]

end

mutual

/-- **A value reads back unchanged** as its own type, if its lengths fit their fields and
    its documents are read from their texts. -/
theorem reads_encode (laws : rt.CodecLaws) : ∀ (v : Value) (ty : LogicalType), v.hasType ty = true →
    v.Fits → v.Rereads rt → ∀ bs, v.encode rt = .ok bs → Reads (Value.decode rt ty) bs v
  | .bool b, .bool, _, _, _, _, rfl => bind_pure (reads_bool b)
  | .int16 n, .int16, _, _, _, _, rfl => bind_pure (reads_i16 n)
  | .int32 n, .int32, _, _, _, _, rfl => bind_pure (reads_i32 n)
  | .int64 n, .int64, _, _, _, _, rfl => bind_pure (reads_i64 n)
  | .text _, .text, _, hfit, _, _, rfl => bind_pure (reads_text hfit)
  | .bytes _, .bytes, _, hfit, _, _, rfl => bind_pure (reads_prefixed hfit)
  | .json _, .json, _, hfit, hdoc, _, rfl => bind_pure (reads_json hfit hdoc)
  | .date days, .date, _, _, _, _, rfl => bind_pure (reads_i32 days)
  | .timestamp micros, .timestamp, _, _, _, _, rfl => bind_pure (reads_i64 micros)
  | .float32 bits, .float32, _, _, _, _, rfl => bind_pure (reads_u32 bits)
  | .float64 bits, .float64, _, _, _, _, rfl => bind_pure (reads_u64 bits)
  | .numeric d, .numeric, _, _, _, _, rfl => by
    have h := bind_pure (g := fun bs => Value.numeric (rt.decimalDeserialize bs))
      (Decoder.reads_take DecodeError.unexpectedEof (laws.length_decimalSerialize d))
    rwa [laws.decimalDeserialize_serialize] at h
  | .time micros, .time, _, _, _, _, rfl => bind_pure (reads_i64 micros)
  | .uuid u, .uuid, _, _, _, _, rfl => bind_pure (reads_uuid u)
  | .interval i, .interval, _, _, _, _, rfl => bind_pure (reads_interval i)
  | .array items, .array element, h, hfit, hdocs, bs, hbs => by
    obtain ⟨bss, hbss, heq⟩ := bind_eq_ok.mp hbs
    cases heq
    have hcount : (UInt32.ofNat items.length).toNat = items.length :=
      UInt32.toNat_ofNat_of_lt' hfit.1
    have hread := reads_u32 (UInt32.ofNat items.length)
    rw [hcount] at hread
    have hitems := reads_encodeAll laws items element h hfit.2 hdocs bss hbss
    refine hread.bind (bind_pure ?_)
    rw [hcount]
    exact hitems

theorem reads_encodeAll (laws : rt.CodecLaws) : ∀ (vs : List Value) (ty : LogicalType),
    allHaveType vs ty = true → AllFit vs → AllReread rt vs → ∀ bs, encodeAll rt vs = .ok bs →
    Reads (Decoder.times vs.length (Value.decode rt ty)) bs vs
  | [], _, _, _, _, _, rfl => Decoder.Reads.pure []
  | v :: vs, ty, h, hfit, hdocs, bs, hbs => by
    rw [allHaveType, Bool.and_eq_true] at h
    obtain ⟨b, hb, htail⟩ := bind_eq_ok.mp hbs
    obtain ⟨bss, hbss, heq⟩ := bind_eq_ok.mp htail
    cases heq
    exact (reads_encode laws v ty h.1 hfit.1 hdocs.1 b hb).bind
      (bind_pure (reads_encodeAll laws vs ty h.2 hfit.2 hdocs.2 bss hbss))

end

end Values

end RoundTrips

end StrataDb.Sql
