import StrataDb.KeyCodec

/-!
# When join keys are ordered in one way

A sort-merge join orders its inputs by key bytes, walks over them by `cmp_values`, and stands in
for a join that decides by `values_eq`. `KeyRank`: one order is behind all three on the keys at
hand.
-/

namespace StrataDb.Sql

open ByteCodec LexOrder

def nonNull (vs : List Value) : List Value := vs.filter (fun v => !v.isNull)

variable {v : Value} {vs : List Value}

theorem mem_nonNull : v ∈ nonNull vs ↔ v ∈ vs ∧ v.isNull = false := by
  simp [nonNull]

/-- `cmp_values` compares the values that are not `NULL` by their ranks. -/
def ComparesBy {O : Type} [LinearOrder O] (rt : Runtime) (rank : Value → O) (values : List Value) :
    Prop :=
  ∀ u ∈ nonNull values, ∀ v ∈ nonNull values, cmpValues rt u v = .ok (order (rank u) (rank v))

/-- The order `rank` is behind the byte order of each side's keys, `cmp_values` where both
    sides have a key to compare, and `values_eq` across the sides. -/
structure KeyRank {O : Type} [LinearOrder O] (rt : Runtime) (rank : Value → O)
    (left right : List Value) : Prop where
  bytes : ∀ side ∈ [left, right], ∀ u ∈ nonNull side, ∀ v ∈ nonNull side,
    ∃ ku kv, u.encodeKey = .ok ku ∧ v.encodeKey = .ok kv ∧ order ku kv = order (rank u) (rank v)
  cmp : nonNull left ≠ [] → nonNull right ≠ [] → ComparesBy rt rank (left ++ right)
  eq : ∀ u ∈ nonNull left, ∀ v ∈ nonNull right,
    (valuesEq rt u v = true ↔ rank u = rank v) ∧ (valuesEq rt v u = true ↔ rank u = rank v)

/-! ### Exact numbers -/

def LogicalType.isExact : LogicalType → Bool
  | .int16 | .int32 | .int64 | .numeric => true
  | _ => false

theorem Decimal.compare_ofInt64 (a b : Int64) :
    (Decimal.ofInt64 a).compare (Decimal.ofInt64 b) = order a.toInt b.toInt := by
  rw [Decimal.compare, Decimal.signed_ofInt64, Decimal.signed_ofInt64]
  simp only [Decimal.ofInt64, pow_zero, mul_one]

variable {ty : LogicalType}

theorem asDecimal_of_isExact (hty : ty.isExact = true)
    (hv : v.hasType ty = true) : ∃ d, asDecimal v = some d := by
  cases ty <;> cases hty <;> cases v <;> simp only [Value.hasType, Bool.false_eq_true] at hv <;>
    exact ⟨_, rfl⟩

variable {u : Value} {a b : Decimal}

theorem cmpValues_asDecimal (rt : Runtime) (ha : asDecimal u = some a)
    (hb : asDecimal v = some b) : cmpValues rt u v = .ok (a.compare b) := by
  cases u <;> cases ha <;> cases v <;> cases hb <;>
    simp only [cmpValues, asI64, asDecimal, Decimal.compare_ofInt64]

theorem valuesEq_asDecimal (rt : Runtime) (ha : asDecimal u = some a)
    (hb : asDecimal v = some b) : valuesEq rt u v = true ↔ a.compare b = .eq := by
  have hint : ∀ m n : Int64, (m == n) = true ↔ order m.toInt n.toInt = .eq := by
    intro m n
    rw [order_eq_eq, beq_iff_eq, Int64.toInt_inj]
  cases u <;> cases ha <;> cases v <;> cases hb <;>
    simp only [valuesEq, asI64, asDecimal, Decimal.compare_ofInt64, hint, beq_iff_eq]

def decimalRank (v : Value) : Bytes :=
  match asDecimal v with
  | some d => d.encodeKey
  | none => []

theorem order_decimalRank (ha : asDecimal u = some a)
    (hb : asDecimal v = some b) : order (decimalRank u) (decimalRank v) = a.compare b := by
  rw [decimalRank, decimalRank, ha, hb, Decimal.order_encodeKey]

theorem isOrderedScalar_of_isExact (h : ty.isExact = true) : ty.isOrderedScalar = true := by
  cases ty <;> first | rfl | cases h

theorem order_encodeKey_exact (rt : Runtime) (hty : ty.isExact = true) (hu : u.hasType ty = true)
    (hv : v.hasType ty = true) (ha : asDecimal u = some a) (hb : asDecimal v = some b) :
    ∃ ku kv, u.encodeKey = .ok ku ∧ v.encodeKey = .ok kv ∧ order ku kv = a.compare b := by
  obtain ⟨ku, kv, hku, hkv, hord⟩ := order_encodeKey rt (isOrderedScalar_of_isExact hty) hu hv
  refine ⟨ku, kv, hku, hkv, ?_⟩
  have hcmp : keyOrder rt u v = cmpValues rt u v := by
    cases u <;> cases ha <;> rw [keyOrder] <;> exact nofun
  rw [hcmp, cmpValues_asDecimal rt ha hb] at hord
  exact (Except.ok.inj hord).symm

/-! ### Keys of one type -/

def bytesRank (v : Value) : Bytes :=
  match v.encodeKey with
  | .ok k => k
  | .error _ => []

theorem bytesRank_of_encodeKey {k : Bytes} (h : v.encodeKey = .ok k) : bytesRank v = k := by
  rw [bytesRank, h]

def LogicalType.holdsFloat32 : LogicalType → Bool
  | .float32 | .array .float32 => true
  | _ => false

section Scalars

variable (rt : Runtime) {ty : LogicalType} {u v : Value}

theorem keyOrder_eq_cmpValues (hty : ty.isOrderedScalar = true) (hfloat : ty ≠ .float32)
    (hu : u.hasType ty = true) (hv : v.hasType ty = true) : keyOrder rt u v = cmpValues rt u v := by
  cases ty <;> cases hty <;> cases u <;> simp only [Value.hasType, Bool.false_eq_true] at hu <;>
    cases v <;> simp only [Value.hasType, Bool.false_eq_true] at hv <;>
      first | rfl | exact absurd rfl hfloat

theorem valuesEq_iff_cmpValues (hty : ty.isOrderedScalar = true) (hu : u.hasType ty = true)
    (hv : v.hasType ty = true) : valuesEq rt u v = true ↔ cmpValues rt u v = .ok .eq := by
  cases ty <;> cases hty <;> cases u <;> simp only [Value.hasType, Bool.false_eq_true] at hu <;>
    cases v <;> simp only [Value.hasType, Bool.false_eq_true] at hv <;>
    simp only [valuesEq, cmpValues, asI64, asDecimal, asF64, structuralEq, beq_iff_eq,
      Except.ok.injEq, order_eq_eq, Int64.toInt_inj, Int32.toInt_inj, utf8_inj, Uuid.bytes_inj]

theorem sameItems_cons (a b : Value) (as bs : List Value) :
    ((a :: as).length == (b :: bs).length && itemsEq rt (a :: as) (b :: bs))
      = (valuesEq rt a b && (as.length == bs.length && itemsEq rt as bs)) := by
  rw [itemsEq, Bool.and_left_comm]
  simp

theorem cmpItems_of_items (hty : ty.isOrderedScalar = true) (hfloat : ty ≠ .float32)
    {us : List Value} (hus : allHaveType us ty = true) (hvs : allHaveType vs ty = true) :
    keyOrderItems rt us vs = cmpItems rt us vs
      ∧ ((us.length == vs.length && itemsEq rt us vs) = true ↔ cmpItems rt us vs = .ok .eq) := by
  induction us generalizing vs with
  | nil =>
    cases vs with
    | nil => exact ⟨rfl, by simp [cmpItems, itemsEq]⟩
    | cons v vs => exact ⟨rfl, by simp [cmpItems, itemsEq, order_eq_eq]⟩
  | cons u us ih =>
    cases vs with
    | nil => exact ⟨rfl, by simp [cmpItems, itemsEq, order_eq_eq]⟩
    | cons v vs =>
      rw [allHaveType, Bool.and_eq_true] at hus hvs
      have hitem := keyOrder_eq_cmpValues rt hty hfloat hus.1 hvs.1
      have heq := valuesEq_iff_cmpValues rt hty hus.1 hvs.1
      obtain ⟨horder, hitems⟩ := ih hus.2 hvs.2
      refine ⟨?_, ?_⟩
      · rw [keyOrderItems, cmpItems, horder]
        generalize keyOrder rt u v = o at hitem
        subst hitem
        rfl
      · rw [sameItems_cons, Bool.and_eq_true, heq, hitems, cmpItems]
        rcases cmpValues rt u v with e | _ | _ | _ <;> simp

end Scalars

theorem cmpValues_sortable (rt : Runtime) (hty : ty.isSortable = true)
    (hfloat : ty.holdsFloat32 = false) (hu : u.hasType ty = true) (hv : v.hasType ty = true) :
    ∃ ku kv, u.encodeKey = .ok ku ∧ v.encodeKey = .ok kv ∧ cmpValues rt u v = .ok (order ku kv)
      ∧ (valuesEq rt u v = true ↔ ku = kv) := by
  obtain ⟨ku, kv, hku, hkv, hord⟩ := order_encodeKey_sortable rt hty hu hv
  have hagree : keyOrder rt u v = cmpValues rt u v
      ∧ (valuesEq rt u v = true ↔ cmpValues rt u v = .ok .eq) := by
    by_cases harray : ∃ element, ty = .array element
    · obtain ⟨element, rfl⟩ := harray
      obtain ⟨w, hw⟩ := Option.isSome_iff_exists.mp hty
      have hne : element ≠ .float32 := by
        rintro rfl
        cases hfloat
      cases u <;> simp only [Value.hasType, Bool.false_eq_true] at hu
      cases v <;> simp only [Value.hasType, Bool.false_eq_true] at hv
      exact cmpItems_of_items rt (isOrderedScalar_of_keyWidth hw) hne hu hv
    · have hscalar : ty.isOrderedScalar = true := by
        cases ty <;> first | exact hty | exact absurd ⟨_, rfl⟩ harray
      have hne : ty ≠ .float32 := by
        rintro rfl
        cases hfloat
      exact ⟨keyOrder_eq_cmpValues rt hscalar hne hu hv, valuesEq_iff_cmpValues rt hscalar hu hv⟩
  rw [hagree.1] at hord
  refine ⟨ku, kv, hku, hkv, hord, ?_⟩
  rw [hagree.2, hord, Except.ok.injEq, order_eq_eq]

def LogicalType.isFloat : LogicalType → Bool
  | .float32 | .float64 => true
  | _ => false

def DoublesKeepOrder (rt : Runtime) (side : List Value) : Prop :=
  ∀ u ∈ nonNull side, ∀ v ∈ nonNull side,
    ∃ a b ku kv, asF64 rt u = some a ∧ asF64 rt v = some b
      ∧ u.encodeKey = .ok ku ∧ v.encodeKey = .ok kv ∧ order ku kv = totalCmp a b

def doubleRank (rt : Runtime) (v : Value) : Int :=
  match asF64 rt v with
  | some a => totalOrder a.toBitVec
  | none => 0

theorem order_doubleRank {rt : Runtime} {a b : UInt64} (ha : asF64 rt u = some a)
    (hb : asF64 rt v = some b) : order (doubleRank rt u) (doubleRank rt v) = totalCmp a b := by
  rw [doubleRank, doubleRank, ha, hb, totalCmp]

theorem cmpValues_asF64 {rt : Runtime} {a b : UInt64} (ha : asF64 rt u = some a)
    (hb : asF64 rt v = some b) (hexact : asDecimal u = none ∨ asDecimal v = none) :
    cmpValues rt u v = .ok (totalCmp a b) ∧ (valuesEq rt u v = true ↔ totalCmp a b = .eq) := by
  have hnone : ∀ {w : Value}, asDecimal w = none → asI64 w = none := by
    intro w hw
    cases w <;> first | rfl | cases hw
  unfold cmpValues valuesEq
  rcases hexact with h | h
  · simp only [ha, hb, hnone h, h, beq_iff_eq, and_self]
  · rcases asI64 u with _ | m <;> rcases asDecimal u with _ | n <;>
      simp only [ha, hb, hnone h, h, beq_iff_eq, and_self]

theorem asDecimal_of_isFloat (hty : ty.isFloat = true)
    (hv : v.hasType ty = true) : asDecimal v = none := by
  cases ty <;> cases hty <;> cases v <;> simp only [Value.hasType, Bool.false_eq_true] at hv <;> rfl

/-! ### The three families -/

/-- Columns of types `lty` and `rty` whose keys are ordered in one way. -/
inductive KeysAgree (rt : Runtime) (lty rty : LogicalType) (left right : List Value) : Prop where
  /-- Integers and numerics, of any widths. -/
  | exact (hl : lty.isExact = true) (hr : rty.isExact = true)
  /-- One type that has an order. -/
  | same (heq : lty = rty) (hty : lty.isSortable = true) (hfloat : lty.holdsFloat32 = false)
  /-- Numbers, a float among the types. -/
  | doubles (hl : lty.isExact = true ∨ lty.isFloat = true) (hr : rty.isExact = true
    ∨ rty.isFloat = true)
      (hfloat : lty.isFloat = true ∨ rty.isFloat = true)
      (hkeepl : DoublesKeepOrder rt left) (hkeepr : DoublesKeepOrder rt right)
  /-- A side without a key, so that none is compared; the other may be of a type without
      an order. -/
  | empty (hnone : nonNull left = [] ∨ nonNull right = [])
      (hbytes : ∀ v ∈ nonNull (left ++ right), ∃ k, v.encodeKey = .ok k)

section Families

variable {rt : Runtime} {lty rty : LogicalType} {left right : List Value}

theorem hasType_of_nonNull
    (hvs : ∀ v ∈ vs, v.fits ty = true) (hv : v ∈ nonNull vs) : v.hasType ty = true := by
  obtain ⟨hmem, hnull⟩ := mem_nonNull.mp hv
  have hfits := hvs v hmem
  rwa [Value.fits, hnull, Bool.false_or] at hfits

theorem mem_nonNull_append :
    v ∈ nonNull (left ++ right) ↔ v ∈ nonNull left ∨ v ∈ nonNull right := by
  rw [nonNull, List.filter_append, List.mem_append, nonNull, nonNull]

theorem ComparesBy.swap {O : Type} [LinearOrder O] {rank : Value → O}
    (h : ComparesBy rt rank (left ++ right)) : ComparesBy rt rank (right ++ left) := by
  intro u hu v hv
  rw [mem_nonNull_append, or_comm, ← mem_nonNull_append] at hu hv
  exact h u hu v hv

theorem keyRank_exact (hl : lty.isExact = true) (hr : rty.isExact = true)
    (hleft : ∀ v ∈ left, v.fits lty = true) (hright : ∀ v ∈ right, v.fits rty = true) :
    KeyRank rt decimalRank left right := by
  have hdec : ∀ v ∈ nonNull (left ++ right), ∃ d, asDecimal v = some d := by
    intro v hv
    rcases mem_nonNull_append.mp hv with hv | hv
    · exact asDecimal_of_isExact hl (hasType_of_nonNull hleft hv)
    · exact asDecimal_of_isExact hr (hasType_of_nonNull hright hv)
  -- one side holds one exact type
  have hside : ∀ {ty : LogicalType} {side : List Value}, ty.isExact = true →
      (∀ v ∈ side, v.fits ty = true) → ∀ u ∈ nonNull side, ∀ v ∈ nonNull side,
      ∃ ku kv, u.encodeKey = .ok ku ∧ v.encodeKey = .ok kv
        ∧ order ku kv = order (decimalRank u) (decimalRank v) := by
    intro ty side hty hfits u hu v hv
    have htu := hasType_of_nonNull hfits hu
    have htv := hasType_of_nonNull hfits hv
    obtain ⟨a, ha⟩ := asDecimal_of_isExact hty htu
    obtain ⟨b, hb⟩ := asDecimal_of_isExact hty htv
    rw [order_decimalRank ha hb]
    exact order_encodeKey_exact rt hty htu htv ha hb
  refine ⟨?_, ?_, ?_⟩
  · intro side hmem
    rcases List.mem_pair.mp hmem with rfl | rfl
    · exact hside hl hleft
    · exact hside hr hright
  · intro _ _ u hu v hv
    obtain ⟨a, ha⟩ := hdec u hu
    obtain ⟨b, hb⟩ := hdec v hv
    rw [cmpValues_asDecimal rt ha hb, order_decimalRank ha hb]
  · intro u hu v hv
    obtain ⟨a, ha⟩ := hdec u (mem_nonNull_append.mpr (.inl hu))
    obtain ⟨b, hb⟩ := hdec v (mem_nonNull_append.mpr (.inr hv))
    rw [valuesEq_asDecimal rt ha hb, valuesEq_asDecimal rt hb ha, ← order_decimalRank ha hb,
      ← order_decimalRank hb ha, order_eq_eq, order_eq_eq]
    exact ⟨Iff.rfl, eq_comm⟩

theorem keyRank_same (hty : lty.isSortable = true) (hfloat : lty.holdsFloat32 = false)
    (hleft : ∀ v ∈ left, v.fits lty = true) (hright : ∀ v ∈ right, v.fits lty = true) :
    KeyRank rt bytesRank left right := by
  have htype : ∀ v ∈ nonNull (left ++ right), v.hasType lty = true := by
    intro v hv
    rcases mem_nonNull_append.mp hv with hv | hv
    · exact hasType_of_nonNull hleft hv
    · exact hasType_of_nonNull hright hv
  refine ⟨?_, ?_, ?_⟩
  · intro side hmem u hu v hv
    have hin : ∀ w ∈ nonNull side, w ∈ nonNull (left ++ right) := by
      intro w hw
      rcases List.mem_pair.mp hmem with rfl | rfl
      · exact mem_nonNull_append.mpr (.inl hw)
      · exact mem_nonNull_append.mpr (.inr hw)
    obtain ⟨ku, kv, hku, hkv, -, -⟩ :=
      cmpValues_sortable rt hty hfloat (htype u (hin u hu)) (htype v (hin v hv))
    exact ⟨ku, kv, hku, hkv, by rw [bytesRank_of_encodeKey hku, bytesRank_of_encodeKey hkv]⟩
  · intro _ _ u hu v hv
    obtain ⟨ku, kv, hku, hkv, hcmp, -⟩ := cmpValues_sortable rt hty hfloat (htype u hu) (htype v hv)
    rw [bytesRank_of_encodeKey hku, bytesRank_of_encodeKey hkv, hcmp]
  · intro u hu v hv
    have htu := htype u (mem_nonNull_append.mpr (.inl hu))
    have htv := htype v (mem_nonNull_append.mpr (.inr hv))
    obtain ⟨ku, kv, hku, hkv, -, heq⟩ := cmpValues_sortable rt hty hfloat htu htv
    obtain ⟨kv', ku', hkv', hku', -, heq'⟩ := cmpValues_sortable rt hty hfloat htv htu
    cases hku.symm.trans hku'
    cases hkv.symm.trans hkv'
    rw [bytesRank_of_encodeKey hku, bytesRank_of_encodeKey hkv]
    exact ⟨heq, heq'.trans eq_comm⟩

theorem cmpValues_keepOrder {side : List Value} (hty : ty.isExact = true ∨ ty.isFloat = true)
    (hside : ∀ v ∈ side, v.fits ty = true) (hkeep : DoublesKeepOrder rt side) :
    ∀ u ∈ nonNull side, ∀ v ∈ nonNull side,
      cmpValues rt u v = .ok (order (doubleRank rt u) (doubleRank rt v)) := by
  intro u hu v hv
  obtain ⟨a, b, ku, kv, ha, hb, hku, hkv, hord⟩ := hkeep u hu v hv
  have htu := hasType_of_nonNull hside hu
  have htv := hasType_of_nonNull hside hv
  rw [order_doubleRank ha hb]
  rcases hty with hexact | hfloat
  · obtain ⟨c, hc⟩ := asDecimal_of_isExact hexact htu
    obtain ⟨d, hd⟩ := asDecimal_of_isExact hexact htv
    obtain ⟨ku', kv', hku', hkv', hord'⟩ := order_encodeKey_exact rt hexact htu htv hc hd
    cases hku.symm.trans hku'
    cases hkv.symm.trans hkv'
    rw [cmpValues_asDecimal rt hc hd, ← hord', hord]
  · exact (cmpValues_asF64 ha hb (.inl (asDecimal_of_isFloat hfloat htu))).1

theorem keyRank_doubles (hl : lty.isExact = true ∨ lty.isFloat = true)
    (hr : rty.isExact = true ∨ rty.isFloat = true)
    (hfloat : lty.isFloat = true ∨ rty.isFloat = true) (hkeepl : DoublesKeepOrder rt left)
    (hkeepr : DoublesKeepOrder rt right) (hleft : ∀ v ∈ left, v.fits lty = true)
    (hright : ∀ v ∈ right, v.fits rty = true) : KeyRank rt (doubleRank rt) left right := by
  -- across the sides one of the two is a float
  have hcross : ∀ u ∈ nonNull left, ∀ v ∈ nonNull right, ∃ a b, asF64 rt u = some a
    ∧ asF64 rt v = some b
      ∧ (asDecimal u = none ∨ asDecimal v = none) := by
    intro u hu v hv
    obtain ⟨a, -, -, -, ha, -⟩ := hkeepl u hu u hu
    obtain ⟨b, -, -, -, hb, -⟩ := hkeepr v hv v hv
    refine ⟨a, b, ha, hb, hfloat.imp ?_ ?_⟩
    · exact fun h => asDecimal_of_isFloat h (hasType_of_nonNull hleft hu)
    · exact fun h => asDecimal_of_isFloat h (hasType_of_nonNull hright hv)
  refine ⟨?_, ?_, ?_⟩
  · intro side hmem u hu v hv
    have hkeep : DoublesKeepOrder rt side := by
      rcases List.mem_pair.mp hmem with rfl | rfl
      · exact hkeepl
      · exact hkeepr
    obtain ⟨a, b, ku, kv, ha, hb, hku, hkv, hord⟩ := hkeep u hu v hv
    exact ⟨ku, kv, hku, hkv, by rw [order_doubleRank ha hb, hord]⟩
  · intro _ _ u hu v hv
    rcases mem_nonNull_append.mp hu with hu | hu <;> rcases mem_nonNull_append.mp hv with hv | hv
    · exact cmpValues_keepOrder hl hleft hkeepl u hu v hv
    · obtain ⟨a, b, ha, hb, hdec⟩ := hcross u hu v hv
      rw [order_doubleRank ha hb, (cmpValues_asF64 ha hb hdec).1]
    · obtain ⟨a, b, ha, hb, hdec⟩ := hcross v hv u hu
      rw [order_doubleRank hb ha, (cmpValues_asF64 hb ha hdec.symm).1]
    · exact cmpValues_keepOrder hr hright hkeepr u hu v hv
  · intro u hu v hv
    obtain ⟨a, b, ha, hb, hdec⟩ := hcross u hu v hv
    rw [(cmpValues_asF64 ha hb hdec).2, (cmpValues_asF64 hb ha hdec.symm).2,
      ← order_doubleRank ha hb, ← order_doubleRank hb ha, order_eq_eq, order_eq_eq]
    exact ⟨Iff.rfl, eq_comm⟩

theorem keyRank_empty (hnone : nonNull left = [] ∨ nonNull right = [])
    (hbytes : ∀ v ∈ nonNull (left ++ right), ∃ k, v.encodeKey = .ok k) :
    KeyRank rt bytesRank left right := by
  refine ⟨?_, fun hl hr => absurd hnone (by simp [hl, hr]), ?_⟩
  · intro side hmem u hu v hv
    have hin : ∀ w ∈ nonNull side, ∃ k, w.encodeKey = .ok k := by
      intro w hw
      apply hbytes
      rcases List.mem_pair.mp hmem with rfl | rfl
      · exact mem_nonNull_append.mpr (.inl hw)
      · exact mem_nonNull_append.mpr (.inr hw)
    obtain ⟨ku, hku⟩ := hin u hu
    obtain ⟨kv, hkv⟩ := hin v hv
    exact ⟨ku, kv, hku, hkv, by rw [bytesRank_of_encodeKey hku, bytesRank_of_encodeKey hkv]⟩
  · intro u hu v hv
    rcases hnone with h | h
    · simp [h] at hu
    · simp [h] at hv

theorem KeysAgree.rank (h : KeysAgree rt lty rty left right) (hleft : ∀ v ∈ left, v.fits lty = true)
    (hright : ∀ v ∈ right, v.fits rty = true) :
    ∃ (O : Type) (_ : LinearOrder O) (rank : Value → O), KeyRank rt rank left right := by
  cases h with
  | exact hl hr => exact ⟨_, _, _, keyRank_exact hl hr hleft hright⟩
  | same heq hty hfloat =>
    subst heq
    exact ⟨_, _, _, keyRank_same hty hfloat hleft hright⟩
  | doubles hl hr hfloat hkeepl hkeepr =>
    exact ⟨_, _, _, keyRank_doubles hl hr hfloat hkeepl hkeepr hleft hright⟩
  | empty hnone hbytes => exact ⟨_, _, _, keyRank_empty hnone hbytes⟩

end Families

end StrataDb.Sql
