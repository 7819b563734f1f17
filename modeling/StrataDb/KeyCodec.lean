import StrataDb.DecimalKey

/-!
# Order-preserving keys (`crates/strata-db/src/storage/codec`: `KeyCodec`, `Value::encode_key`)

Keys are compared as byte strings, so they have to compare as the values do (`order_encodeKey`):
big-endian words with the sign flipped, the total-order transform for floats, the content for
text, and for an array the keys of its items, which keeps the order when they have one width.
-/

namespace StrataDb.Sql

open ByteCodec LexOrder

/-! ### The encoding -/

def encodeKeyBool (b : Bool) : Bytes := [if b then 1 else 0]
def encodeKeyI16 (n : Int16) : Bytes := beBytes 2 (flipSign 16 n.toInt)
def encodeKeyI32 (n : Int32) : Bytes := beBytes 4 (flipSign 32 n.toInt)
def encodeKeyI64 (n : Int64) : Bytes := beBytes 8 (flipSign 64 n.toInt)
def encodeKeyF32 (bits : UInt32) : Bytes := beBytes 4 (totalOrderBits 32 bits.toBitVec).toNat
def encodeKeyF64 (bits : UInt64) : Bytes := beBytes 8 (totalOrderBits 64 bits.toBitVec).toNat
def Interval.encodeKey (i : Interval) : Bytes := beBytes 16 (flipSign 128 i.toMicros)

mutual

def Value.encodeKey : Value → Except KeyEncodeError Bytes
  | .null => .error .nullKey
  | .bool b => .ok (encodeKeyBool b)
  | .int16 n => .ok (encodeKeyI16 n)
  | .int32 n => .ok (encodeKeyI32 n)
  | .int64 n => .ok (encodeKeyI64 n)
  | .text s => .ok (utf8 s)
  | .bytes b => .ok b
  | .json j => .ok (utf8 j.text)
  | .date days => .ok (encodeKeyI32 days)
  | .timestamp micros => .ok (encodeKeyI64 micros)
  | .float32 bits => .ok (encodeKeyF32 bits)
  | .float64 bits => .ok (encodeKeyF64 bits)
  | .numeric d => .ok d.encodeKey
  | .time micros => .ok (encodeKeyI64 micros)
  | .uuid u => .ok u.bytes
  | .interval i => .ok i.encodeKey
  | .array items => encodeKeys items

def encodeKeys : List Value → Except KeyEncodeError Bytes
  | [] => .ok []
  | v :: vs => do
    let key ← v.encodeKey
    let keys ← encodeKeys vs
    return key ++ keys

end

mutual

/-- How two values of one type compare: by `cmp_values`, floats by the total order of
    their own bits. -/
def keyOrder (rt : Runtime) : Value → Value → Outcome Ordering
  | .float32 a, .float32 b => .ok (order (totalOrder a.toBitVec) (totalOrder b.toBitVec))
  | .float64 a, .float64 b => .ok (order (totalOrder a.toBitVec) (totalOrder b.toBitVec))
  | .array a, .array b => keyOrderItems rt a b
  | a, b => cmpValues rt a b

def keyOrderItems (rt : Runtime) : List Value → List Value → Outcome Ordering
  | x :: xs, y :: ys =>
    match keyOrder rt x y with
    | .ok .eq => keyOrderItems rt xs ys
    | r => r
  | xs, ys => .ok (order xs.length ys.length)

end

def LogicalType.keyWidth : LogicalType → Option Nat
  | .bool => some 1
  | .int16 => some 2
  | .int32 | .date | .float32 => some 4
  | .int64 | .timestamp | .time | .float64 => some 8
  | .uuid | .interval => some 16
  | .text | .bytes | .json | .numeric | .array _ => none

def LogicalType.isOrderedScalar : LogicalType → Bool
  | .text | .numeric => true
  | ty => ty.keyWidth.isSome

section Scalars

theorem order_encodeKeyBool (a b : Bool) :
    order (encodeKeyBool a) (encodeKeyBool b) = order a b := by
  cases a <;> cases b <;> decide

theorem order_encodeKeyI16 (a b : Int16) :
    order (encodeKeyI16 a) (encodeKeyI16 b) = order a.toInt b.toInt := by
  rw [encodeKeyI16, encodeKeyI16, order_beBytes (flipSign_lt _ _) (flipSign_lt _ _)]
  exact order_flipSign ⟨a.le_toInt, a.toInt_lt⟩ ⟨b.le_toInt, b.toInt_lt⟩

theorem order_encodeKeyI32 (a b : Int32) :
    order (encodeKeyI32 a) (encodeKeyI32 b) = order a.toInt b.toInt := by
  rw [encodeKeyI32, encodeKeyI32, order_beBytes (flipSign_lt _ _) (flipSign_lt _ _)]
  exact order_flipSign ⟨a.le_toInt, a.toInt_lt⟩ ⟨b.le_toInt, b.toInt_lt⟩

theorem order_encodeKeyI64 (a b : Int64) :
    order (encodeKeyI64 a) (encodeKeyI64 b) = order a.toInt b.toInt := by
  rw [encodeKeyI64, encodeKeyI64, order_beBytes (flipSign_lt _ _) (flipSign_lt _ _)]
  exact order_flipSign ⟨a.le_toInt, a.toInt_lt⟩ ⟨b.le_toInt, b.toInt_lt⟩

theorem order_encodeKeyF32 (a b : UInt32) :
    order (encodeKeyF32 a) (encodeKeyF32 b) = order (totalOrder a.toBitVec)
      (totalOrder b.toBitVec) := by
  rw [encodeKeyF32, encodeKeyF32, order_beBytes (BitVec.isLt _) (BitVec.isLt _)]
  exact order_totalOrderBits a.toBitVec b.toBitVec

theorem order_encodeKeyF64 (a b : UInt64) :
    order (encodeKeyF64 a) (encodeKeyF64 b) = order (totalOrder a.toBitVec)
      (totalOrder b.toBitVec) := by
  rw [encodeKeyF64, encodeKeyF64, order_beBytes (BitVec.isLt _) (BitVec.isLt _)]
  exact order_totalOrderBits a.toBitVec b.toBitVec

theorem Interval.order_encodeKey (a b : Interval) :
    order a.encodeKey b.encodeKey = order a.toMicros b.toMicros := by
  rw [Interval.encodeKey, Interval.encodeKey, order_beBytes (flipSign_lt _ _) (flipSign_lt _ _)]
  exact order_flipSign a.toMicros_bounds b.toMicros_bounds

theorem order_encodeKey (rt : Runtime) {ty : LogicalType} (hty : ty.isOrderedScalar = true)
    {a b : Value} (ha : a.hasType ty = true) (hb : b.hasType ty = true) :
    ∃ ka kb, a.encodeKey = .ok ka ∧ b.encodeKey = .ok kb ∧ keyOrder rt a b = .ok (order ka kb) := by
  -- both values have the type, so one pair of constructors is left for each type
  cases ty <;> cases hty <;> cases a <;> simp only [Value.hasType, Bool.false_eq_true] at ha <;>
    cases b <;> simp only [Value.hasType, Bool.false_eq_true] at hb <;>
    refine ⟨_, _, rfl, rfl, ?_⟩
  case bool.refl.bool.bool a b =>
    rw [order_encodeKeyBool]
    rfl
  case int16.refl.int16.int16 a b =>
    rw [order_encodeKeyI16, ← Int16.toInt_toInt64, ← Int16.toInt_toInt64]
    rfl
  case int32.refl.int32.int32 a b =>
    rw [order_encodeKeyI32, ← Int32.toInt_toInt64, ← Int32.toInt_toInt64]
    rfl
  case int64.refl.int64.int64 a b =>
    rw [order_encodeKeyI64]
    rfl
  case text.refl.text.text a b => rfl
  case date.refl.date.date a b =>
    rw [order_encodeKeyI32]
    rfl
  case timestamp.refl.timestamp.timestamp a b =>
    rw [order_encodeKeyI64]
    rfl
  case float32.refl.float32.float32 a b =>
    rw [order_encodeKeyF32]
    rfl
  case float64.refl.float64.float64 a b =>
    rw [order_encodeKeyF64]
    rfl
  case numeric.refl.numeric.numeric a b =>
    rw [Decimal.order_encodeKey]
    rfl
  case time.refl.time.time a b =>
    rw [order_encodeKeyI64]
    rfl
  case uuid.refl.uuid.uuid a b => rfl
  case interval.refl.interval.interval a b =>
    rw [Interval.order_encodeKey]
    rfl

theorem length_encodeKey {ty : LogicalType} {w : Nat} (hw : ty.keyWidth = some w) {a : Value}
    (ha : a.hasType ty = true) {k : Bytes} (hk : a.encodeKey = .ok k) : k.length = w := by
  cases ty <;> cases hw <;> cases a <;> simp only [Value.hasType, Bool.false_eq_true] at ha <;>
    cases hk
  case bool.refl.bool b => rfl
  case uuid.refl.uuid u => exact u.length_eq
  all_goals exact length_beBytes _ _

/-- **Key encoding is an order embedding** on every type but bytes, JSON and arrays:
    two values have keys, these compare as the values do, and they are equal exactly
    when the values compare equal. -/
theorem encode_key_order_embedding (rt : Runtime) (ty : LogicalType) (a b : Value)
    (hty : ty.isOrderedScalar = true) (ha : a.hasType ty = true) (hb : b.hasType ty = true) :
    ∃ ka kb, a.encodeKey = .ok ka ∧ b.encodeKey = .ok kb
      ∧ keyOrder rt a b = .ok (order ka kb)
      ∧ (ka = kb ↔ keyOrder rt a b = .ok .eq) := by
  obtain ⟨ka, kb, hka, hkb, hord⟩ := order_encodeKey rt hty ha hb
  refine ⟨ka, kb, hka, hkb, hord, ?_⟩
  rw [hord, Except.ok.injEq, order_eq_eq]

/-- `1.50` and `1.5` have one key. -/
theorem encode_key_order_embedding_numeric :
    ∃ ka kb, (Value.numeric ⟨false, 150, 2, by decide, by decide⟩).encodeKey = .ok ka
      ∧ (Value.numeric ⟨false, 15, 1, by decide, by decide⟩).encodeKey = .ok kb ∧ ka = kb := by
  obtain ⟨ka, kb, hka, hkb, -, heq⟩ := encode_key_order_embedding default .numeric
    (.numeric ⟨false, 150, 2, by decide, by decide⟩) (.numeric ⟨false, 15, 1, by decide, by decide⟩)
    rfl rfl rfl
  exact ⟨ka, kb, hka, hkb, heq.mpr rfl⟩

end Scalars

section Arrays

variable {ty : LogicalType} {w : Nat}

theorem keyWidth_pos (hw : ty.keyWidth = some w) : 0 < w := by
  cases ty <;> cases hw <;> decide

theorem isOrderedScalar_of_keyWidth (hw : ty.keyWidth = some w) : ty.isOrderedScalar = true := by
  cases ty <;> cases hw <;> rfl

/-- **Keys of arrays compare item by item**, given items whose keys have one width. -/
theorem order_encodeKeys (rt : Runtime) (hw : ty.keyWidth = some w) {as bs : List Value}
    (has : allHaveType as ty = true) (hbs : allHaveType bs ty = true) :
    ∃ ka kb, encodeKeys as = .ok ka ∧ encodeKeys bs = .ok kb
      ∧ keyOrderItems rt as bs = .ok (order ka kb) := by
  have hscalar := isOrderedScalar_of_keyWidth hw
  -- an item's key is not empty, so a longer array has a longer key
  have hcons : ∀ {v : Value} {k : Bytes} (ks : Bytes), v.hasType ty = true → v.encodeKey = .ok k →
      ∃ b bs, k ++ ks = b :: bs := by
    intro v k ks hv hk
    refine List.exists_cons_of_length_pos ?_
    rw [List.length_append, length_encodeKey hw hv hk]
    exact Nat.add_pos_left (keyWidth_pos hw) _
  induction as generalizing bs with
  | nil =>
    induction bs with
    | nil => exact ⟨[], [], rfl, rfl, rfl⟩
    | cons b bs ih =>
      rw [allHaveType, Bool.and_eq_true] at hbs
      obtain ⟨k, -, hk, -⟩ := order_encodeKey rt hscalar hbs.1 hbs.1
      obtain ⟨-, ks, -, hks, -⟩ := ih hbs.2
      obtain ⟨c, cs, hkey⟩ := hcons ks hbs.1 hk
      refine ⟨[], k ++ ks, rfl, by simp only [encodeKeys, hk, hks]; rfl, ?_⟩
      rw [hkey, order_nil_cons]
      rfl
  | cons a as ih =>
    rw [allHaveType, Bool.and_eq_true] at has
    cases bs with
    | nil =>
      obtain ⟨k, -, hk, -⟩ := order_encodeKey rt hscalar has.1 has.1
      obtain ⟨ks, -, hks, -⟩ := ih has.2 hbs
      obtain ⟨c, cs, hkey⟩ := hcons ks has.1 hk
      refine ⟨k ++ ks, [], by simp only [encodeKeys, hk, hks]; rfl, rfl, ?_⟩
      rw [hkey, order_cons_nil]
      rfl
    | cons b bs =>
      rw [allHaveType, Bool.and_eq_true] at hbs
      obtain ⟨ka, kb, hka, hkb, hord⟩ := order_encodeKey rt hscalar has.1 hbs.1
      obtain ⟨kas, kbs, hkas, hkbs, hords⟩ := ih has.2 hbs.2
      refine ⟨ka ++ kas, kb ++ kbs, by simp only [encodeKeys, hka, hkas]; rfl,
        by simp only [encodeKeys, hkb, hkbs]; rfl, ?_⟩
      rw [order_append ((length_encodeKey hw has.1 hka).trans (length_encodeKey hw hbs.1 hkb).symm),
        keyOrderItems, hord, hords]
      cases order ka kb <;> rfl

end Arrays

/-! ### Sortable types -/

/-- The types two values of which `ORDER BY` is to order: those `cmp_values` orders,
    arrays only of items whose keys have one width. -/
def LogicalType.isSortable : LogicalType → Bool
  | .array element => element.keyWidth.isSome
  | ty => ty.isOrderedScalar

theorem order_encodeKey_sortable (rt : Runtime) {ty : LogicalType} (hty : ty.isSortable = true)
    {a b : Value} (ha : a.hasType ty = true) (hb : b.hasType ty = true) :
    ∃ ka kb, a.encodeKey = .ok ka ∧ b.encodeKey = .ok kb ∧ keyOrder rt a b = .ok (order ka kb) := by
  cases ty with
  | array element =>
    obtain ⟨w, hw⟩ := Option.isSome_iff_exists.mp hty
    cases a <;> simp only [Value.hasType, Bool.false_eq_true] at ha
    cases b <;> simp only [Value.hasType, Bool.false_eq_true] at hb
    exact order_encodeKeys rt hw ha hb
  | _ =>
    refine order_encodeKey rt ?_ ha hb
    exact hty

theorem apart_encodeKey {ty : LogicalType} (hty : ty.isOrderedScalar = true) (htext : ty ≠ .text)
    {a b : Value} (ha : a.hasType ty = true) (hb : b.hasType ty = true) {ka kb : Bytes}
    (hka : a.encodeKey = .ok ka) (hkb : b.encodeKey = .ok kb) : Apart ka kb := by
  by_cases hnum : ty = .numeric
  · subst hnum
    cases a <;> simp only [Value.hasType, Bool.false_eq_true] at ha
    cases b <;> simp only [Value.hasType, Bool.false_eq_true] at hb
    cases hka
    cases hkb
    exact Decimal.apart_encodeKey _ _
  · have hwidth : ∃ w, ty.keyWidth = some w := by
      refine Option.isSome_iff_exists.mp ?_
      cases ty <;> first | exact hty | exact absurd rfl htext | exact absurd rfl hnum
    obtain ⟨w, hw⟩ := hwidth
    exact apart_of_length ((length_encodeKey hw ha hka).trans (length_encodeKey hw hb hkb).symm)

end StrataDb.Sql
