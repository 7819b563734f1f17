import StrataDb.ValueCodec

/-!
# Rows under a schema (`crates/strata-db/src/catalog/schema.rs`, `storage/types.rs`)

```text
[ null bitmap, one bit per field | the values that are not NULL, in field order ]
```

A row that conforms to the schema is encoded, in as many bytes as announced, and reads back.
-/

namespace StrataDb.Sql

open ByteCodec
open Runs (bind_eq_ok)
open List (Forall₂ length_append replicate)

structure Field where
  name : String
  ty : LogicalType
  nullable : Bool
  default : Option String
deriving DecidableEq

structure Schema where
  fields : List Field
deriving DecidableEq

/-! ### The encoding -/

def bitmapBytes (fields : Nat) : Nat :=
  (fields + 7) / 8

def setBit (buf : Bytes) (i : Nat) : Bytes :=
  buf.modify (i / 8) (· ||| UInt8.ofNat (2 ^ (i % 8)))

def bitAt (bitmap : Bytes) (i : Nat) : Bool :=
  (bitmap.getD (i / 8) 0).toNat.testBit (i % 8)

def encodeFrom (rt : Runtime) : Nat → List Value → Bytes → Outcome Bytes
  | _, [], buf => .ok buf
  | i, v :: vs, buf =>
    if v.isNull then
      encodeFrom rt (i + 1) vs (setBit buf i)
    else do
      let bs ← v.encode rt
      encodeFrom rt (i + 1) vs (buf ++ bs)

def decodeFrom (rt : Runtime) (bitmap : Bytes) : Nat → List Field → ValueDecoder Tuple
  | _, [] => pure []
  | i, field :: fields =>
    if bitAt bitmap i then do
      return .null :: (← decodeFrom rt bitmap (i + 1) fields)
    else do
      let v ← Value.decode rt field.ty
      return v :: (← decodeFrom rt bitmap (i + 1) fields)

namespace Schema

variable (rt : Runtime) (schema : Schema)

def encodedSize (tuple : Tuple) : Nat :=
  bitmapBytes schema.fields.length + encodedSizes tuple

def encode (tuple : Tuple) : Outcome Bytes :=
  if schema.fields.length = tuple.length then
    encodeFrom rt 0 tuple (replicate (bitmapBytes schema.fields.length) 0)
  else
    panicked ("tuple length must match schema field count (schema="
      ++ toString schema.fields.length ++ ", tuple=" ++ toString tuple.length ++ ")")

def decode (bytes : Bytes) : Except DecodeError Tuple :=
  let n := bitmapBytes schema.fields.length
  if bytes.length < n then
    .error .unexpectedEof
  else
    match decodeFrom rt (bytes.take n) 0 schema.fields (bytes.drop n) with
    | .error e => .error e
    | .ok (values, rest) => if rest.isEmpty then .ok values else .error .trailingBytes

end Schema

/-! ### The bitmap -/

def nullBits : Nat → List Value → Bytes → Bytes
  | _, [], bitmap => bitmap
  | i, v :: vs, bitmap => nullBits (i + 1) vs (if v.isNull then setBit bitmap i else bitmap)

@[simp] theorem length_setBit (buf : Bytes) (i : Nat) : (setBit buf i).length = buf.length :=
  List.length_modify ..

variable {bitmap : Bytes} {i : Nat}

theorem setBit_append (h : i / 8 < bitmap.length) (payload : Bytes) :
    setBit (bitmap ++ payload) i = setBit bitmap i ++ payload := by
  apply List.ext_getElem?
  intro k
  rw [setBit, List.getElem?_modify]
  rcases Nat.lt_or_ge k bitmap.length with hk | hk
  · rw [List.getElem?_append_left hk, List.getElem?_append_left (by simpa using hk), setBit,
      List.getElem?_modify]
  · rw [List.getElem?_append_right hk, List.getElem?_append_right (by simpa using hk),
      length_setBit]
    have hne : i / 8 ≠ k := by omega
    simp [hne]

theorem bitAt_setBit (h : i / 8 < bitmap.length) (j : Nat) :
    bitAt (setBit bitmap i) j = (bitAt bitmap j || i == j) := by
  have hpow : (UInt8.ofNat (2 ^ (i % 8))).toNat = 2 ^ (i % 8) := by
    refine UInt8.toNat_ofNat_of_lt' ?_
    calc 2 ^ (i % 8) < 2 ^ 8 := Nat.pow_lt_pow_right (by omega) (Nat.mod_lt _ (by omega))
      _ = UInt8.size := rfl
  rw [bitAt, bitAt, setBit, List.getD_eq_getElem?_getD, List.getD_eq_getElem?_getD,
    List.getElem?_modify]
  by_cases hbyte : i / 8 = j / 8
  · rw [← hbyte, List.getElem?_eq_getElem h]
    simp only [Option.map_eq_map, Option.map_some, if_pos, Option.getD_some, UInt8.toNat_or, hpow,
      Nat.testBit_or, Nat.testBit_two_pow]
    congr 1
    rw [Bool.eq_iff_iff, decide_eq_true_iff, beq_iff_eq]
    omega
  · have hij : (i == j) = false := by
      rw [beq_eq_false_iff_ne]
      rintro rfl
      exact hbyte rfl
    simp [hbyte, hij]

@[simp] theorem length_nullBits (i : Nat) (vs : List Value) (bitmap : Bytes) :
    (nullBits i vs bitmap).length = bitmap.length := by
  induction vs generalizing i bitmap with
  | nil => rfl
  | cons v vs ih =>
    rw [nullBits, ih]
    split <;> simp

theorem bitAt_nullBits {vs : List Value} (h : i + vs.length ≤ 8 * bitmap.length) (j : Nat) :
    bitAt (nullBits i vs bitmap) j
      = (bitAt bitmap j || (decide (i ≤ j) && (vs[j - i]?.any Value.isNull))) := by
  induction vs generalizing i bitmap with
  | nil => simp [nullBits]
  | cons v vs ih =>
    simp only [List.length_cons] at h
    have hbyte : i / 8 < bitmap.length := by omega
    have hlen : (if v.isNull then setBit bitmap i else bitmap).length = bitmap.length := by
      split <;> simp
    rw [nullBits, ih (by rw [hlen]; omega)]
    have hbit : bitAt (if v.isNull then setBit bitmap i else bitmap) j
        = (bitAt bitmap j || (v.isNull && i == j)) := by
      cases hnull : v.isNull
      · simp
      · simp [bitAt_setBit hbyte]
    rw [hbit, Bool.or_assoc]
    congr 1
    -- a later bit is one of the rest, an earlier one is left as it was
    rcases Nat.lt_trichotomy i j with hij | rfl | hij
    · obtain ⟨k, rfl⟩ := Nat.exists_eq_add_of_lt hij
      have hne : (i == i + k + 1) = false := beq_eq_false_iff_ne.mpr (by omega)
      rw [hne, show i + k + 1 - (i + 1) = k by omega, show i + k + 1 - i = k + 1 by omega]
      simp
      omega
    · simp
    · have hne : (i == j) = false := beq_eq_false_iff_ne.mpr (by omega)
      rw [hne, decide_eq_false (by omega), decide_eq_false (by omega)]
      simp

theorem bitAt_zeros (n j : Nat) : bitAt (replicate n 0) j = false := by
  rw [bitAt, List.getD_eq_getElem?_getD, List.getElem?_replicate]
  split <;> simp

/-! ### Rows -/

/-- A value a column may hold: `NULL` if it is nullable, otherwise of its type. -/
def Field.Accepts (field : Field) (v : Value) : Prop :=
  (v = .null ∧ field.nullable = true) ∨ v.hasType field.ty = true

def Conforms (schema : Schema) (tuple : Tuple) : Prop :=
  Forall₂ Field.Accepts schema.fields tuple

/-- A row of the schema's arity whose values are `NULL` or of the columns' types. -/
def Fitting (fields : List Field) (tuple : Tuple) : Prop :=
  Forall₂ (fun field v => Value.fits v field.ty = true) fields tuple

/-- Such a row, with documents that are read from their texts. -/
def Typed (rt : Runtime) (fields : List Field) (tuple : Tuple) : Prop :=
  Forall₂ (fun field v => Value.fits v field.ty = true ∧ v.Rereads rt) fields tuple

/-- A row the schema accepts, with documents that are read from their texts. -/
def Restorable (rt : Runtime) (schema : Schema) (tuple : Tuple) : Prop :=
  Conforms schema tuple ∧ AllReread rt tuple

variable {tuple : Tuple}

theorem Conforms.fitting {schema : Schema} (h : Conforms schema tuple) :
    Fitting schema.fields tuple :=
  Forall₂.imp (fun field v hv => by
    rcases hv with ⟨rfl, -⟩ | hv
    · rfl
    · exact Bool.or_eq_true_iff.mpr (Or.inr hv)) h

variable {fields : List Field}

theorem Typed.fitting {rt : Runtime} (h : Typed rt fields tuple) : Fitting fields tuple :=
  Forall₂.imp (fun _ _ hv => hv.1) h

theorem Fitting.typed {rt : Runtime}
    (h : Fitting fields tuple) (hdocs : AllReread rt tuple) : Typed rt fields tuple := by
  induction h with
  | nil => exact .nil
  | cons hv _ ih => exact .cons ⟨hv, hdocs.1⟩ (ih hdocs.2)

theorem Restorable.typed {rt : Runtime} {schema : Schema}
    (h : Restorable rt schema tuple) : Typed rt schema.fields tuple :=
  h.1.fitting.typed h.2

theorem Fitting.allFit (h : Fitting fields tuple)
    (hsize : encodedSizes tuple < 2 ^ 32) : AllFit tuple := by
  induction h with
  | nil => trivial
  | @cons field v fields vs hv _ ih =>
    rw [encodedSizes] at hsize
    refine ⟨?_, ih (by omega)⟩
    rcases Bool.or_eq_true_iff.mp hv with hnull | hty
    · cases v <;> trivial
    · exact fits_of_encodedSize v field.ty hty (by omega)

section Rows

variable {rt : Runtime} {fields : List Field} {vs : List Value}

open Decoder (Reads)

def present (vs : List Value) : List Value :=
  vs.filter fun v => !v.isNull

theorem encodedSizes_present (vs : List Value) : encodedSizes (present vs) = encodedSizes vs := by
  induction vs with
  | nil => rfl
  | cons v vs ih =>
    cases v <;> simp only [present, List.filter_cons, Value.isNull, Bool.not_true, Bool.not_false,
      Bool.false_eq_true, if_false, if_true, encodedSizes] <;> rw [← ih]
    · rw [Value.encodedSize, Nat.zero_add]
      rfl
    all_goals rfl

theorem encodeAll_present (laws : rt.CodecLaws) (h : Fitting fields vs) :
    ∃ bs, encodeAll rt (present vs) = .ok bs ∧ bs.length = encodedSizes vs := by
  rw [← encodedSizes_present vs]
  induction h with
  | nil => exact ⟨[], rfl, rfl⟩
  | @cons field v fields vs hv _ ih =>
    obtain ⟨bss, hbss, hlens⟩ := ih
    rcases Bool.or_eq_true_iff.mp hv with hnull | hty
    · refine ⟨bss, ?_, ?_⟩ <;>
        rw [present, List.filter_cons_of_neg (by simp [hnull])]
      · exact hbss
      · exact hlens
    · obtain ⟨bs, hbs, hlen⟩ := encode_ok laws v field.ty hty
      have hcons : present (v :: vs) = v :: present vs :=
        List.filter_cons_of_pos (by simp [isNull_of_hasType hty])
      rw [hcons]
      refine ⟨bs ++ bss, ?_, ?_⟩
      · exact bind_eq_ok.mpr ⟨bs, hbs, bind_eq_ok.mpr ⟨bss, hbss, rfl⟩⟩
      · rw [length_append, hlen, hlens, encodedSizes]

variable {bs : Bytes}

/-- **The walk writes the bitmap and the values side by side.** -/
theorem encodeFrom_eq (payload : Bytes)
    (h : i + vs.length ≤ 8 * bitmap.length) (hbs : encodeAll rt (present vs) = .ok bs) :
    encodeFrom rt i vs (bitmap ++ payload) = .ok (nullBits i vs bitmap ++ (payload ++ bs)) := by
  induction vs generalizing i bitmap payload bs with
  | nil =>
    cases hbs
    simp [encodeFrom, nullBits]
  | cons v vs ih =>
    simp only [List.length_cons] at h
    rw [encodeFrom, nullBits]
    cases hnull : v.isNull
    · have hcons : present (v :: vs) = v :: present vs :=
        List.filter_cons_of_pos (by simp [hnull])
      rw [hcons] at hbs
      obtain ⟨b, hb, htail⟩ := bind_eq_ok.mp hbs
      obtain ⟨bss, hbss, heq⟩ := bind_eq_ok.mp htail
      cases heq
      have hrest : encodeFrom rt (i + 1) vs (bitmap ++ (payload ++ b))
          = .ok (nullBits (i + 1) vs bitmap ++ (payload ++ b ++ bss)) :=
            ih (payload ++ b) (by omega) hbss
      simp only [Bool.false_eq_true, if_false]
      refine bind_eq_ok.mpr ⟨b, hb, ?_⟩
      rw [List.append_assoc, hrest, List.append_assoc]
    · have hcons : present (v :: vs) = present vs :=
        List.filter_cons_of_neg (by simp [hnull])
      rw [hcons] at hbs
      simp only [if_true]
      rw [setBit_append (by omega)]
      exact ih payload (by rw [length_setBit]; omega) hbs

theorem decodeFrom_cons_null {field : Field} {vs : Tuple} (hbit : bitAt bitmap i = true)
    (h : Reads (decodeFrom rt bitmap (i + 1) fields) bs vs) :
    Reads (decodeFrom rt bitmap i (field :: fields)) bs (.null :: vs) := by
  rw [decodeFrom, if_pos hbit]
  exact Decoder.Reads.bind_pure h

theorem decodeFrom_cons {field : Field} {bss : Bytes} {v : Value} {vs : Tuple}
    (hbit : bitAt bitmap i = false) (hv : Reads (Value.decode rt field.ty) bs v)
    (h : Reads (decodeFrom rt bitmap (i + 1) fields) bss vs) :
    Reads (decodeFrom rt bitmap i (field :: fields)) (bs ++ bss) (v :: vs) := by
  rw [decodeFrom, if_neg (by simp [hbit])]
  exact hv.bind (Decoder.Reads.bind_pure h)

theorem reads_decodeFrom (laws : rt.CodecLaws) (h : Typed rt fields vs) (hfit : AllFit vs)
    (hbits : ∀ k v, vs[k]? = some v → bitAt bitmap (i + k) = v.isNull)
    (hbs : encodeAll rt (present vs) = .ok bs) : Reads (decodeFrom rt bitmap i fields) bs vs := by
  induction h generalizing i bs with
  | nil =>
    cases hbs
    exact Decoder.Reads.pure []
  | @cons field v fields vs hv _ ih =>
    have hbit : bitAt bitmap i = v.isNull := hbits 0 v rfl
    have hbits' : ∀ k w, vs[k]? = some w → bitAt bitmap (i + 1 + k) = w.isNull := by
      intro k w hw
      rw [Nat.add_assoc, Nat.add_comm 1 k]
      exact hbits (k + 1) w hw
    rcases Bool.or_eq_true_iff.mp hv.1 with hnull | hty
    · obtain rfl : v = .null := by cases v <;> first | rfl | cases hnull
      have hcons : present (.null :: vs) = present vs := rfl
      rw [hcons] at hbs
      exact decodeFrom_cons_null hbit (ih hfit.2 hbits' hbs)
    · have hnull := isNull_of_hasType hty
      have hcons : present (v :: vs) = v :: present vs :=
        List.filter_cons_of_pos (by simp [hnull])
      rw [hcons] at hbs
      obtain ⟨b, hb, htail⟩ := bind_eq_ok.mp hbs
      obtain ⟨bss, hbss, heq⟩ := bind_eq_ok.mp htail
      cases heq
      exact decodeFrom_cons (hbit.trans hnull) (reads_encode laws v field.ty hty hfit.1 hv.2 b hb)
        (ih hfit.2 hbits' hbss)

namespace Schema

variable {schema : Schema} {tuple : Tuple}

theorem encode_eq (laws : rt.CodecLaws) (h : Fitting schema.fields tuple) :
    ∃ bs, encodeAll rt (present tuple) = .ok bs ∧ bs.length = encodedSizes tuple
      ∧ schema.encode rt tuple
        = .ok (nullBits 0 tuple (replicate (bitmapBytes schema.fields.length) 0) ++ bs) := by
  obtain ⟨bs, hbs, hlen⟩ := encodeAll_present laws h
  refine ⟨bs, hbs, hlen, ?_⟩
  have hfits : 0 + tuple.length
      ≤ 8 * (replicate (bitmapBytes schema.fields.length) (0 : UInt8)).length := by
    rw [List.length_replicate, ← h.length_eq, bitmapBytes]
    omega
  have hwalk := encodeFrom_eq [] hfits hbs
  rw [List.append_nil, List.nil_append] at hwalk
  rw [encode, if_pos h.length_eq, hwalk]

/-- **A typed row is encoded, in as many bytes as announced.** -/
theorem encode_ok (laws : rt.CodecLaws) (h : Fitting schema.fields tuple) :
    ∃ bytes, schema.encode rt tuple = .ok bytes ∧ bytes.length = schema.encodedSize tuple := by
  obtain ⟨bs, -, hlen, henc⟩ := encode_eq laws h
  refine ⟨_, henc, ?_⟩
  rw [length_append, length_nullBits, List.length_replicate, hlen, encodedSize]

/-- **A typed row reads back unchanged**, if its lengths fit their fields. -/
theorem decode_encode (laws : rt.CodecLaws) (h : Typed rt schema.fields tuple) (hfit : AllFit tuple)
    {bytes : Bytes} (henc : schema.encode rt tuple = .ok bytes) :
    schema.decode rt bytes = .ok tuple := by
  obtain ⟨bs, hbs, hlen, heq⟩ := encode_eq laws h.fitting
  obtain rfl := Except.ok.inj (henc.symm.trans heq)
  have hzeros := List.length_replicate (n := bitmapBytes schema.fields.length) (a := (0 : UInt8))
  have hfits : 0 + tuple.length
      ≤ 8 * (replicate (bitmapBytes schema.fields.length) (0 : UInt8)).length := by
    rw [hzeros, ← h.length_eq, bitmapBytes]
    omega
  have hmap : (nullBits 0 tuple (replicate (bitmapBytes schema.fields.length) 0)).length
      = bitmapBytes schema.fields.length := by rw [length_nullBits, hzeros]
  have hbits : ∀ k v, tuple[k]? = some v →
      bitAt (nullBits 0 tuple (replicate (bitmapBytes schema.fields.length) 0)) (0 + k)
        = v.isNull := by
    intro k v hv
    rw [bitAt_nullBits hfits, bitAt_zeros]
    simp [hv]
  have hread := reads_decodeFrom laws h hfit hbits hbs []
  rw [List.append_nil] at hread
  rw [decode]
  simp only [length_append, hmap]
  rw [if_neg (by omega), List.take_left' hmap, List.drop_left' hmap, hread]
  rfl

/-- **A typed row of less than `2 ^ 32` bytes reads back unchanged.** -/
theorem decode_encode_of_length (laws : rt.CodecLaws) (h : Typed rt schema.fields tuple)
    {bytes : Bytes} (henc : schema.encode rt tuple = .ok bytes) (hlen : bytes.length < 2 ^ 32) :
    schema.decode rt bytes = .ok tuple := by
  obtain ⟨bytes', henc', hsize⟩ := encode_ok laws h.fitting
  obtain rfl := Except.ok.inj (henc'.symm.trans henc)
  rw [encodedSize] at hsize
  exact decode_encode laws h (h.fitting.allFit (by omega)) henc

theorem decode_trailing {rest : Bytes} (hlen : bitmap.length = bitmapBytes schema.fields.length)
    (hread : Reads (decodeFrom rt bitmap 0 schema.fields) bs tuple) (hrest : rest ≠ []) :
    schema.decode rt (bitmap ++ (bs ++ rest)) = .error .trailingBytes := by
  rw [decode]
  simp only [length_append, hlen]
  rw [if_neg (by omega), List.take_left' hlen, List.drop_left' hlen, hread]
  cases rest with
  | nil => exact absurd rfl hrest
  | cons b rest => rfl

end Schema

end Rows

end StrataDb.Sql
