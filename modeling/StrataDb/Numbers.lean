import StrataDb.FloatGrid
import StrataDb.Comparison

/-!
# The number a value denotes (`storage/types.rs`: the numeric variants of `Value`)
-/

namespace StrataDb.Sql

open LexOrder FloatBits FloatGrid

/-! ### Floats -/

/-- The rational of a binary word with a sign bit, `k - p` bits of exponent and `p` of
    fraction, whose smallest number is `1 / 2 ^ scale`.  The largest exponent is kept for
    the infinities and the NaNs. -/
def floatNumber {k : Nat} (p scale : Nat) (bits : BitVec (k + 1)) : Option ℚ :=
  if magnitude (totalOrder bits) < infinity k p then
    some (amount p (totalOrder bits) / 2 ^ scale)
  else
    none

def f32Number (bits : UInt32) : Option ℚ := floatNumber 23 149 bits.toBitVec

def f64Number (bits : UInt64) : Option ℚ := floatNumber 52 1074 bits.toBitVec

theorem integer_of_floatNumber {k p scale : Nat} {bits : BitVec (k + 1)} {x : ℚ}
    (hx : floatNumber p scale bits = some x) (hlarge : 2 ^ p ≤ |x|) : ∃ n : Int, x = n := by
  unfold floatNumber at hx
  split at hx
  · obtain rfl := Option.some.inj hx
    have hscale : (0 : ℚ) < 2 ^ scale := by positivity
    rw [abs_div, abs_of_pos hscale, le_div_iff₀ hscale, ← pow_add] at hlarge
    obtain ⟨n, hn⟩ := dvd_amount (by exact_mod_cast hlarge)
    refine ⟨n, ?_⟩
    rw [hn, div_eq_iff hscale.ne']
    push_cast
    ring
  · cases hx

/-- The double is the number rounded to nearest, ties to even. -/
def NearestF64 (q : ℚ) (bits : UInt64) : Prop :=
  Nearest 52 ((2 ^ 11 - 1) * 2 ^ 52) (q * 2 ^ 1074) (totalOrder bits.toBitVec)

theorem totalOrder_word {k n : Nat} (negative : Bool) (hn : n < 2 ^ k) :
    totalOrder (word k negative n) = if negative then -(n : Int) - 1 else n := by
  have hpow : 2 ^ (k + 1) = 2 ^ k + 2 ^ k := by rw [pow_succ]; omega
  have hcast : ((2 ^ k : Nat) : Int) = 2 ^ k := by simp
  rw [totalOrder, word, BitVec.toNat_ofNat]
  cases negative
  · rw [if_neg Bool.false_ne_true, if_neg Bool.false_ne_true, Nat.mod_eq_of_lt (by omega),
      if_pos hn]
  · rw [if_pos rfl, if_pos rfl, Nat.mod_eq_of_lt (by omega), if_neg (by omega)]
    omega

theorem nearestF64_f64OfI64 (n : Int64) : NearestF64 n.toInt (f64OfI64 n) := by
  have hlarge : 2 ^ 63 * 2 ^ 1074 < units 52 ((2 ^ 11 - 1) * 2 ^ 52 - 1) := by decide +kernel
  have hrange := (⟨n.le_toInt, n.toInt_lt⟩ : _ ∧ _)
  have hm : n.toInt.natAbs * 2 ^ 1074 < units 52 ((2 ^ 11 - 1) * 2 ^ 52 - 1) :=
    lt_of_le_of_lt (Nat.mul_le_mul_right _ (by omega)) hlarge
  have hplace := (nearest_nearestPlace (by omega) hm).closest.1.2
  have hnear := nearest_int (by omega) hm
  rw [Nat.cast_pow, Nat.cast_ofNat] at hnear
  rw [NearestF64, f64OfI64, totalOrder_word _ (by omega)]
  simpa only [decide_eq_true_eq, Int64.lt_iff_toInt_lt, Int64.toInt_zero] using hnear

/-! ### Widening -/

/-- A NaN whose quiet bit is not set. -/
def isSignalling (bits : UInt32) : Bool :=
  let n := bits.toNat % 2 ^ 31
  255 * 2 ^ 23 < n && n < 255 * 2 ^ 23 + 2 ^ 22

theorem units_widen (n k : Nat) :
    units 52 (floorPlace 52 (units 23 n * 2 ^ k)) = units 23 n * 2 ^ k := by
  have hlt : units 23 n < 2 ^ ((units 23 n).log2 + 1) := Nat.lt_log2_self
  have hdvd : 2 ^ ((units 23 n).log2 - 23) ∣ units 23 n := by
    by_cases hlow : (units 23 n).log2 ≤ 23
    · rw [Nat.sub_eq_zero_of_le hlow]
      exact one_dvd _
    · refine dvd_units ?_
      rw [Nat.add_sub_cancel' (by omega)]
      exact Nat.log2_self_le fun h => by simp [h] at hlow
  refine units_floorPlace (k := (units 23 n).log2 - 23 + k) ?_ ?_
  · rw [pow_add]
    exact Nat.mul_dvd_mul_right hdvd _
  · calc units 23 n * 2 ^ k < 2 ^ ((units 23 n).log2 + 1) * 2 ^ k :=
          Nat.mul_lt_mul_of_pos_right hlt (Nat.two_pow_pos _)
      _ = 2 ^ ((units 23 n).log2 + 1 + k) := (pow_add ..).symm
      _ ≤ 2 ^ (52 + 1 + ((units 23 n).log2 - 23 + k)) := Nat.pow_le_pow_right (by omega) (by omega)

theorem floorPlace_widen_lt {m n : Nat} (h : m < n) (k : Nat) :
    floorPlace 52 (units 23 m * 2 ^ k) < floorPlace 52 (units 23 n * 2 ^ k) := by
  rw [← (units_strictMono 52).lt_iff_lt, units_widen, units_widen]
  exact Nat.mul_lt_mul_of_pos_right (units_strictMono 23 h) (Nat.two_pow_pos _)

theorem widenPlace_lt {m n : Nat} (h : m < n)
    (hm : ¬ (255 * 2 ^ 23 < m ∧ m < 255 * 2 ^ 23 + 2 ^ 22)) (hn : n < 2 ^ 31) :
    widenPlace m < widenPlace n := by
  have hinf : floorPlace 52 (units 23 (255 * 2 ^ 23) * 2 ^ 925) < 2047 * 2 ^ 52 := by decide +kernel
  unfold widenPlace
  by_cases hfm : m < 255 * 2 ^ 23
  · rw [if_pos hfm]
    by_cases hfn : n < 255 * 2 ^ 23
    · rw [if_pos hfn]
      exact floorPlace_widen_lt h _
    · have := (floorPlace_widen_lt hfm _).trans hinf
      rw [if_neg hfn]
      split <;> omega
  · rw [if_neg hfm, if_neg (show ¬ n < 255 * 2 ^ 23 by omega),
      if_neg (show n ≠ 255 * 2 ^ 23 by omega)]
    split <;> omega

theorem widenPlace_lt_pow (n : Nat) : widenPlace n < 2 ^ 63 := by
  have hinf : floorPlace 52 (units 23 (255 * 2 ^ 23) * 2 ^ 925) < 2047 * 2 ^ 52 := by decide +kernel
  unfold widenPlace
  split
  · rename_i h
    have := (floorPlace_widen_lt h _).trans hinf
    omega
  · split <;> omega

theorem totalOrder_f64OfF32_lt {a b : UInt32} (ha : isSignalling a = false)
    (hb : isSignalling b = false) (h : totalOrder a.toBitVec < totalOrder b.toBitVec) :
    totalOrder (f64OfF32 a).toBitVec < totalOrder (f64OfF32 b).toBitVec := by
  have hlt (n : UInt32) : n.toNat % 2 ^ 31 < 2 ^ 31 := Nat.mod_lt _ (by omega)
  simp only [isSignalling, Bool.and_eq_false_iff, decide_eq_false_iff_not] at ha hb
  have halt := a.toNat_lt
  have hblt := b.toNat_lt
  rw [f64OfF32, f64OfF32, totalOrder_word _ (widenPlace_lt_pow _),
    totalOrder_word _ (widenPlace_lt_pow _)]
  simp only [totalOrder, UInt32.toNat_toBitVec, decide_eq_true_eq] at h ⊢
  split at h <;> split at h
  · rw [if_neg (by omega), if_neg (by omega)]
    have :=
      widenPlace_lt (m := a.toNat % 2 ^ 31) (n := b.toNat % 2 ^ 31) (by omega) (by omega) (hlt b)
    omega
  · omega
  · rw [if_pos (by omega), if_neg (by omega)]
    omega
  · rw [if_pos (by omega), if_pos (by omega)]
    have :=
      widenPlace_lt (m := b.toNat % 2 ^ 31) (n := a.toNat % 2 ^ 31) (by omega) (by omega) (hlt a)
    omega

/-- Widening keeps the total order of all patterns but the signalling NaNs. -/
theorem totalCmp_f64OfF32 {a b : UInt32} (ha : isSignalling a = false)
    (hb : isSignalling b = false) :
    totalCmp (f64OfF32 a) (f64OfF32 b) = order (totalOrder a.toBitVec) (totalOrder b.toBitVec) := by
  rw [totalCmp]
  rcases lt_trichotomy (totalOrder a.toBitVec) (totalOrder b.toBitVec) with h | h | h
  · rw [order_lt h, order_lt (totalOrder_f64OfF32_lt ha hb h)]
  · rw [totalOrder_inj, UInt32.toBitVec_inj] at h
    rw [h, order_self, order_self]
  · rw [order_gt h, order_gt (totalOrder_f64OfF32_lt hb ha h)]

def Decimal.number (d : Decimal) : ℚ :=
  d.signed / 10 ^ d.scale

theorem Decimal.compare_eq (x y : Decimal) : x.compare y = order x.number y.number := by
  have hpos (d : Decimal) : (0 : ℚ) < 10 ^ d.scale := by positivity
  have hlt (x y : Decimal) :
      x.signed * 10 ^ y.scale < y.signed * 10 ^ x.scale ↔ x.number < y.number := by
    rw [Decimal.number, Decimal.number, div_lt_div_iff₀ (hpos x) (hpos y)]
    exact_mod_cast Iff.rfl
  rw [Decimal.compare]
  rcases lt_trichotomy x.number y.number with h | h | h
  · rw [order_lt h, order_lt ((hlt x y).mpr h)]
  · have hxy := mt (hlt x y).mp (not_lt.mpr h.ge)
    have hyx := mt (hlt y x).mp (not_lt.mpr h.le)
    rw [h, order_self, order_eq_eq]
    omega
  · rw [order_gt h, order_gt ((hlt y x).mpr h)]

theorem Decimal.number_ofInt64 (n : Int64) : (Decimal.ofInt64 n).number = n.toInt := by
  rw [Decimal.number, Decimal.signed_ofInt64]
  exact div_one _

def Value.number : Value → Option ℚ
  | .int16 n => some n.toInt
  | .int32 n => some n.toInt
  | .int64 n => some n.toInt
  | .float32 bits => f32Number bits
  | .float64 bits => f64Number bits
  | .numeric d => some d.number
  | _ => none

end StrataDb.Sql
