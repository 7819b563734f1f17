import StrataDb.Cast
import StrataDb.Numbers

/-!
# Casting numbers to integers (`query/expression/cast.rs`: `cast_to_i64`, `fit_int_cast`)

`f.round() as i64` rounds ties away from zero, saturates and makes a NaN zero;
`d.round().to_i64()` rounds ties to even and fails outside the range. The result is a nearest
integer except where the float saturates, and two values of one number cast alike except on the
ties sent apart.
-/

namespace StrataDb.Sql

open LexOrder FloatBits FloatGrid

/-! ### Rounding to integers -/

def roundAway (x : ℚ) : Int :=
  if 0 ≤ x then ⌊x + 1 / 2⌋ else ⌈x - 1 / 2⌉

def roundEven (x : ℚ) : Int :=
  if x - ⌊x⌋ < 1 / 2 ∨ x - ⌊x⌋ = 1 / 2 ∧ ⌊x⌋ % 2 = 0 then ⌊x⌋ else ⌊x⌋ + 1

theorem roundAway_near (x : ℚ) : |x - roundAway x| ≤ 1 / 2 := by
  rw [roundAway, abs_le]
  split
  · have hlo := Int.floor_le (x + 1 / 2)
    have hhi := Int.lt_floor_add_one (x + 1 / 2)
    constructor <;> linarith
  · have hlo := Int.le_ceil (x - 1 / 2)
    have hhi := Int.ceil_lt_add_one (x - 1 / 2)
    constructor <;> linarith

theorem roundEven_near (x : ℚ) : |x - roundEven x| ≤ 1 / 2 := by
  have hlo := Int.floor_le x
  have hhi := Int.lt_floor_add_one x
  rw [roundEven, abs_le]
  split
  · rename_i h
    rcases h with h | ⟨h, -⟩ <;> constructor <;> linarith
  · rename_i h
    have hge : 1 / 2 ≤ x - ⌊x⌋ := not_lt.mp fun hlt => h (Or.inl hlt)
    push_cast
    constructor <;> linarith

@[simp] theorem roundAway_intCast (n : Int) : roundAway n = n := by
  rw [roundAway]
  split
  · rw [Int.floor_intCast_add]
    norm_num
  · rw [sub_eq_add_neg, Int.ceil_intCast_add]
    norm_num

theorem toInt_saturate (n : Int) : (saturate n).toInt = max (-2 ^ 63) (min n (2 ^ 63 - 1)) := by
  exact Int64.toInt_ofInt_of_le (by omega) (by omega)

/-! ### What the casts of the standard library and of `rust_decimal` compute -/

def floatAsI64 {k : Nat} (p scale : Nat) (bits : BitVec (k + 1)) : Int64 :=
  match floatNumber p scale bits with
  | some x => saturate (roundAway x)
  | none =>
    if bits.toNat % 2 ^ p ≠ 0 then
      0
    else if bits.msb then
      Int64.minValue
    else
      Int64.maxValue

theorem roundAway_neg {x : ℚ} (hx : 0 ≤ x) : roundAway (-x) = -roundAway x := by
  rw [roundAway, roundAway, if_pos hx]
  split
  · have : x = 0 := by linarith
    subst this
    norm_num
  · rw [show -x - 1 / 2 = -(x + 1 / 2) by ring, Int.ceil_neg]

theorem roundAway_units (p scale n : Nat) :
    roundAway ((units p n : ℚ) / 2 ^ scale) = nearestWhole p scale n := by
  rw [roundAway, if_pos (by positivity), nearestWhole, Int.natCast_div,
    ← Rat.floor_intCast_div_natCast]
  congr 1
  push_cast
  field_simp
  ring

theorem roundAway_amount {k : Nat} (p scale : Nat) (bits : BitVec (k + 1)) :
    roundAway (amount p (totalOrder bits) / 2 ^ scale)
      = if bits.toNat < 2 ^ k then
          (nearestWhole p scale (bits.toNat % 2 ^ k) : Int)
        else
          -(nearestWhole p scale (bits.toNat % 2 ^ k)) := by
  have hlt : bits.toNat < 2 ^ (k + 1) := bits.isLt
  rw [pow_succ] at hlt
  have hcast : ((2 ^ k : Nat) : Int) = 2 ^ k := by simp
  rw [totalOrder]
  split
  · rename_i h
    rw [amount_natCast, Nat.mod_eq_of_lt h, roundAway_units]
  · rename_i h
    have hmod : bits.toNat % 2 ^ k = bits.toNat - 2 ^ k := by
      rw [Nat.mod_eq_sub_mod (by omega), Nat.mod_eq_of_lt (by omega)]
    have hplace : (2 ^ k - 1 - bits.toNat : Int) = -((bits.toNat % 2 ^ k : Nat) : Int) - 1 := by
      rw [hmod]
      omega
    rw [hplace, (amount_mirror _).1, Int.cast_neg, amount_natCast, neg_div,
      roundAway_neg (by positivity), roundAway_units]

theorem magnitude_totalOrder {k : Nat} (bits : BitVec (k + 1)) :
    magnitude (totalOrder bits) = bits.toNat % 2 ^ k := by
  have hlt : bits.toNat < 2 ^ (k + 1) := bits.isLt
  have hcast : ((2 ^ k : Nat) : Int) = 2 ^ k := by simp
  rw [pow_succ] at hlt
  rw [totalOrder, magnitude]
  split
  · rename_i h
    rw [if_pos (Int.natCast_nonneg _), Int.toNat_natCast, Nat.mod_eq_of_lt h]
  · rw [if_neg (by omega), Nat.mod_eq_sub_mod (by omega), Nat.mod_eq_of_lt (by omega)]
    omega

theorem truncI64_word {k p scale n : Nat} (negative : Bool) (hn : n < 2 ^ k) :
    truncI64 p scale (word k negative n) = if infinity k p < n then 0
      else saturate (if negative then -(wholePart p scale n : Int) else wholePart p scale n) := by
  have hpow : 2 ^ (k + 1) = 2 ^ k + 2 ^ k := by rw [pow_succ]; omega
  rw [truncI64, word, BitVec.toNat_ofNat]
  cases negative
  · simp only [Bool.false_eq_true, if_false]
    rw [Nat.mod_eq_of_lt (by omega : n < 2 ^ (k + 1)), Nat.mod_eq_of_lt hn, if_pos hn]
  · simp only [if_true]
    rw [Nat.mod_eq_of_lt (by omega : 2 ^ k + n < 2 ^ (k + 1)), Nat.add_mod_left,
      Nat.mod_eq_of_lt hn, if_neg (show ¬ 2 ^ k + n < 2 ^ k by omega)]

section Rounded

variable {k p scale n : Nat} {bits : BitVec (k + 1)}

theorem floatAsI64_finite (h : bits.toNat % 2 ^ k < infinity k p) :
    floatAsI64 p scale bits
      = saturate (if 2 ^ k ≤ bits.toNat then
          -(nearestWhole p scale (bits.toNat % 2 ^ k) : Int)
        else
          (nearestWhole p scale (bits.toNat % 2 ^ k))) := by
  simp only [floatAsI64, floatNumber, magnitude_totalOrder, if_pos h, roundAway_amount]
  split <;> split <;> first | rfl | omega

theorem units_roundPlace (h : units p n < 2 ^ (p + scale)) :
    units p (roundPlace p scale n) = nearestWhole p scale n * 2 ^ scale
      ∧ nearestWhole p scale n ≤ 2 ^ p := by
  have hr : nearestWhole p scale n ≤ 2 ^ p := by
    rw [← Nat.lt_succ_iff, nearestWhole, Nat.div_lt_iff_lt_mul (Nat.two_pow_pos _),
      show Nat.succ (2 ^ p) * 2 ^ (scale + 1) = 2 * 2 ^ (p + scale) + 2 * 2 ^ scale by
        rw [Nat.succ_eq_add_one]; ring]
    have := Nat.two_pow_pos scale
    omega
  refine ⟨?_, hr⟩
  rw [roundPlace, if_pos h]
  refine units_floorPlace (k := scale) (Nat.dvd_mul_left _ _) ?_
  rw [pow_add 2 (p + 1)]
  exact Nat.mul_lt_mul_of_pos_right (hr.trans_lt (Nat.pow_lt_pow_right (by omega) (by omega)))
    (Nat.two_pow_pos _)

theorem infinity_add (hk : p < k) : infinity k p + 2 ^ p = 2 ^ k := by
  rw [infinity, ← Nat.succ_mul, Nat.succ_eq_add_one, Nat.sub_add_cancel Nat.one_le_two_pow,
    ← pow_add, Nat.sub_add_cancel hk.le]

theorem floatAsI64_notFinite (hk : p < k) (h : infinity k p ≤ bits.toNat % 2 ^ k) :
    floatAsI64 p scale bits
      = if infinity k p < bits.toNat % 2 ^ k then 0
        else if 2 ^ k ≤ bits.toNat then Int64.minValue else Int64.maxValue := by
  have hbound := infinity_add hk
  obtain ⟨f, hf⟩ := Nat.exists_eq_add_of_le h
  have hn : bits.toNat % 2 ^ k < 2 ^ k := Nat.mod_lt _ (Nat.two_pow_pos _)
  have hfraction : bits.toNat % 2 ^ p = f := by
    rw [← Nat.mod_mod_of_dvd bits.toNat (Nat.pow_dvd_pow 2 hk.le), hf, infinity,
      Nat.mul_add_mod_of_lt (by omega)]
  simp only [floatAsI64, floatNumber, magnitude_totalOrder, if_neg (not_lt.mpr h), hfraction,
    BitVec.msb_eq_decide, Nat.add_sub_cancel, decide_eq_true_eq]
  by_cases hzero : f = 0
  · rw [if_neg (not_not.mpr hzero), if_neg (show ¬ infinity k p < bits.toNat % 2 ^ k by omega)]
  · rw [if_pos hzero, if_pos (by omega)]

theorem saturate_large {n : Int} (h : 2 ^ 63 ≤ n) :
    saturate n = Int64.maxValue ∧ saturate (-n) = Int64.minValue := by
  rw [saturate, saturate, min_eq_right (by omega), max_eq_right (by omega), max_eq_left (by omega)]
  exact ⟨rfl, rfl⟩

/-- **Rounding and then dropping the fraction** gives the nearest integer. -/
theorem truncI64_roundPlace (hk : p < k) (hp : p ≤ 63)
    (hlast : 2 ^ (63 + scale) ≤ units p (infinity k p)) (bits : BitVec (k + 1)) :
    truncI64 p scale (word k (2 ^ k ≤ bits.toNat) (roundPlace p scale (bits.toNat % 2 ^ k)))
      = floatAsI64 p scale bits := by
  have hbound := infinity_add hk
  have hn : bits.toNat % 2 ^ k < 2 ^ k := Nat.mod_lt _ (Nat.two_pow_pos _)
  have hp0 := Nat.two_pow_pos p
  have hmid : 2 ^ (p + scale) ≤ units p (infinity k p) :=
    (Nat.pow_le_pow_right (by omega) (by omega)).trans hlast
  by_cases hsmall : units p (bits.toNat % 2 ^ k) < 2 ^ (p + scale)
  · obtain ⟨hunits, hr⟩ := units_roundPlace (n := bits.toNat % 2 ^ k) hsmall
    have hplace : roundPlace p scale (bits.toNat % 2 ^ k) ≤ infinity k p := by
      rw [← (units_strictMono p).le_iff_le, hunits]
      refine (Nat.mul_le_mul_right _ hr).trans ?_
      rwa [← pow_add]
    rw [truncI64_word _ (by omega), if_neg (by omega), wholePart, hunits,
      Nat.mul_div_cancel _ (Nat.two_pow_pos _),
      floatAsI64_finite ((units_strictMono p).lt_iff_lt.mp (hsmall.trans_le hmid))]
    simp only [decide_eq_true_eq]
  · rw [roundPlace, if_neg hsmall, truncI64_word _ hn]
    rcases Nat.lt_trichotomy (bits.toNat % 2 ^ k) (infinity k p) with
      hfin | hinf | hnan
    · -- from `2 ^ p` on a float has no fraction
      obtain ⟨c, hc⟩ := dvd_units (not_lt.mp hsmall)
      have hround : nearestWhole p scale (bits.toNat % 2 ^ k)
          = wholePart p scale (bits.toNat % 2 ^ k) := by
        rw [nearestWhole, wholePart, hc, Nat.mul_div_cancel_left _ (Nat.two_pow_pos _), pow_succ,
          show 2 * (2 ^ scale * c) + 2 ^ scale = 2 ^ scale * 2 * c + 2 ^ scale by ring,
          Nat.mul_add_div (by positivity),
          Nat.div_eq_of_lt (by have := Nat.two_pow_pos scale; omega), add_zero]
      rw [if_neg (by omega), floatAsI64_finite hfin, hround]
      simp only [decide_eq_true_eq]
    · have hwhole : 2 ^ 63 ≤ wholePart p scale (bits.toNat % 2 ^ k) := by
        rw [wholePart, hinf, Nat.le_div_iff_mul_le (Nat.two_pow_pos _), ← pow_add]
        exact hlast
      obtain ⟨hmax, hmin⟩ :=
        saturate_large (n := wholePart p scale (bits.toNat % 2 ^ k)) (by exact_mod_cast hwhole)
      rw [if_neg hinf.not_gt, floatAsI64_notFinite hk hinf.ge, if_neg hinf.not_gt]
      simp only [decide_eq_true_eq]
      split
      · exact hmin
      · exact hmax
    · rw [if_pos hnan, floatAsI64_notFinite hk (by omega), if_pos hnan]

end Rounded

theorem i64OfF32_f32Round (bits : UInt32) :
    i64OfF32 (f32Round bits) = floatAsI64 23 149 bits.toBitVec :=
  truncI64_roundPlace (by omega) (by omega) (by decide +kernel) bits.toBitVec

theorem i64OfF64_f64Round (bits : UInt64) :
    i64OfF64 (f64Round bits) = floatAsI64 52 1074 bits.toBitVec :=
  truncI64_roundPlace (by omega) (by omega) (by decide +kernel) bits.toBitVec

/-- Decimals are rounded to the nearest integer, ties to even. -/
def RoundsDecimals (rt : Runtime) : Prop :=
  ∀ d, rt.decimalToI64 (rt.decimalRound d) = fitI64 (roundEven d.number)

/-! ### Casts of numbers -/

def Value.isNumeric : Value → Bool
  | .int16 _ | .int32 _ | .int64 _ | .float32 _ | .float64 _ | .numeric _ => true
  | _ => false

def Value.isDecimal : Value → Bool
  | .numeric _ => true
  | _ => false

def LogicalType.isInteger : LogicalType → Bool
  | .int16 | .int32 | .int64 => true
  | _ => false

def intValue : LogicalType → Int → Option Value
  | .int16, n => (fitI16 n).map .int16
  | .int32, n => (fitI32 n).map .int32
  | .int64, n => (fitI64 n).map .int64
  | _, _ => none

/-- The cast gives the integer `n`, or an error where the target's range has no `n`. -/
def CastsTo (rt : Runtime) (v : Value) (target : LogicalType) (n : Int) : Prop :=
  match intValue target n with
  | some w => evalCast rt v target = .ok w
  | none => ∃ msg, evalCast rt v target = typeError msg

def CastRounds (rt : Runtime) (v : Value) (target : LogicalType) : Prop :=
  match v.number with
  | some x => ∃ n : Int, |x - n| ≤ 1 / 2 ∧ CastsTo rt v target n
  | none => ∃ msg, evalCast rt v target = typeError msg

def SameResult (x y : Outcome Value) : Prop :=
  (∃ w, x = .ok w ∧ y = .ok w) ∨ ∃ e e', x = .error e ∧ y = .error e'

def Value.rounding (v : Value) (x : ℚ) : Int :=
  if v.isDecimal then roundEven x else roundAway x

/-- The bits of a float for which `as i64` gives an integer in place of an error: a NaN,
    and for a 64-bit target an infinity or a number outside the range. -/
def floatSaturates {k : Nat} (p scale : Nat) (bits : BitVec (k + 1)) (target : LogicalType) :
    Bool :=
  match floatNumber p scale bits with
  | some x => target == .int64 && (fitI64 (roundAway x)).isNone
  | none => target == .int64 || bits.toNat % 2 ^ p != 0

def Saturates (v : Value) (target : LogicalType) : Bool :=
  match v with
  | .float32 bits => floatSaturates 23 149 bits.toBitVec target
  | .float64 bits => floatSaturates 52 1074 bits.toBitVec target
  | _ => false

/-- One number in a decimal and in another type, on a tie that the two rules send apart
    and not both out of range. -/
def RoundsApart (u v : Value) (target : LogicalType) : Prop :=
  u.isDecimal ≠ v.isDecimal ∧ ∃ x, u.number = some x ∧ v.number = some x
    ∧ roundAway x ≠ roundEven x
    ∧ (intValue target (roundAway x) ≠ none ∨ intValue target (roundEven x) ≠ none)

variable {rt : Runtime} {u v : Value} {target : LogicalType} {x : ℚ} {n m : Int}

theorem fitI16_toInt (n : Int16) : fitI16 n.toInt = some n := by
  rw [fitI16, if_pos ⟨n.le_toInt, n.toInt_lt⟩, Int16.ofInt_toInt]

theorem fitI32_toInt (n : Int32) : fitI32 n.toInt = some n := by
  rw [fitI32, if_pos ⟨n.le_toInt, n.toInt_lt⟩, Int32.ofInt_toInt]

theorem fitI64_toInt (n : Int64) : fitI64 n.toInt = some n := by
  rw [fitI64, if_pos ⟨n.le_toInt, n.toInt_lt⟩, Int64.ofInt_toInt]

theorem fitIntCast_cases {α : Type} (k : Int64) (tryFrom : Int → Option α) (wrap : α → Value) :
    match (tryFrom k.toInt).map wrap with
    | some w => fitIntCast k tryFrom wrap = .ok w
    | none => ∃ msg, fitIntCast k tryFrom wrap = typeError msg := by
  unfold fitIntCast
  cases tryFrom k.toInt with
  | none => exact ⟨_, rfl⟩
  | some m => rfl

theorem castsTo_of_castToI64 {k : Int64} (htarget : target.isInteger = true)
    (hnull : v.isNull = false) (h : castToI64 rt v = .ok k) : CastsTo rt v target k.toInt := by
  cases target <;> cases htarget <;>
    simp only [CastsTo, intValue, evalCast, hnull, h, Bool.false_eq_true, if_false]
  · exact fitIntCast_cases k fitI16 .int16
  · exact fitIntCast_cases k fitI32 .int32
  · rw [fitI64_toInt]
    rfl

theorem evalCast_of_castToI64_error {msg : String} (htarget : target.isInteger = true)
    (hnull : v.isNull = false) (h : castToI64 rt v = typeError msg) :
    evalCast rt v target = typeError msg := by
  cases target <;> cases htarget <;>
    simp only [evalCast, hnull, h, Bool.false_eq_true, if_false] <;> rfl

theorem intValue_none (h : fitI64 n = none) : intValue target n = none := by
  have hout : ¬ (-2 ^ 63 ≤ n ∧ n < 2 ^ 63) := fun hin => by
    rw [fitI64, if_pos hin] at h
    cases h
  cases target <;> simp only [intValue, Option.map_eq_none_iff, fitI16, fitI32, h] <;>
    exact if_neg (by omega)

theorem intValue_saturate (h : target ≠ .int64 ∨ fitI64 n ≠ none) :
    intValue target (saturate n).toInt = intValue target n := by
  by_cases hin : -2 ^ 63 ≤ n ∧ n < 2 ^ 63
  · rw [toInt_saturate]
    congr 1
    omega
  · have hnone : fitI64 n = none := if_neg hin
    have htarget : target ≠ .int64 := h.resolve_right (fun hne => hne hnone)
    rw [intValue_none hnone]
    cases target <;> simp only [intValue, Option.map_eq_none_iff, fitI16, fitI32]
    case int64 => exact absurd rfl htarget
    all_goals exact if_neg (by rw [toInt_saturate]; omega)

theorem number_intValue {w : Value} (h : intValue target n = some w) : w.number = some (n : ℚ) := by
  have hfit {α : Type} {fit : Int → Option α} {toInt : α → Int} {wrap : α → Value}
      (hto : ∀ {k a}, fit k = some a → toInt a = k)
        (hnum : ∀ a, (wrap a).number = some (toInt a : ℚ))
      (h : (fit n).map wrap = some w) : w.number = some (n : ℚ) := by
    obtain ⟨a, ha, rfl⟩ := Option.map_eq_some_iff.mp h
    rw [hnum, hto ha]
  cases target <;> try cases h
  · refine hfit (fun {k a} hk => ?_) (fun a => rfl) h
    unfold fitI16 at hk
    split at hk <;> cases hk
    exact Int16.toInt_ofInt_of_le (by omega) (by omega)
  · refine hfit (fun {k a} hk => ?_) (fun a => rfl) h
    unfold fitI32 at hk
    split at hk <;> cases hk
    exact Int32.toInt_ofInt_of_le (by omega) (by omega)
  · refine hfit (fun {k a} hk => ?_) (fun a => rfl) h
    unfold fitI64 at hk
    split at hk <;> cases hk
    exact Int64.toInt_ofInt_of_le (by omega) (by omega)

theorem intValue_eq_iff :
    intValue target n = intValue target m ↔
      n = m ∨ intValue target n = none ∧ intValue target m = none := by
  refine ⟨fun h => ?_, fun h => ?_⟩
  · cases hn : intValue target n with
    | none => exact Or.inr ⟨rfl, h ▸ hn⟩
    | some w =>
      have hnm := Option.some.inj ((number_intValue hn).symm.trans (number_intValue (h ▸ hn)))
      exact Or.inl (by exact_mod_cast hnm)
  · rcases h with rfl | ⟨hn, hm⟩
    · rfl
    · rw [hn, hm]

theorem castsTo_congr (h : intValue target n = intValue target m) :
    CastsTo rt v target n ↔ CastsTo rt v target m := by
  rw [CastsTo, CastsTo, h]

/-- **A number that does not saturate casts to its rounding.** -/
theorem castsTo_rounding (law : RoundsDecimals rt) (hv : v.isNumeric = true)
    (htarget : target.isInteger = true) (hsat : Saturates v target = false)
    (hx : v.number = some x) : CastsTo rt v target (v.rounding x) := by
  have hnull : v.isNull = false := by
    cases v <;> first | rfl | cases hv
  -- both float types go through one conversion
  have hfloat {k p scale : Nat} {bits : BitVec (k + 1)} (hnum : floatNumber p scale bits = some x)
      (hsat : floatSaturates p scale bits target = false)
      (hcast : castToI64 rt v = .ok (floatAsI64 p scale bits)) :
      CastsTo rt v target (roundAway x) := by
    have h := castsTo_of_castToI64 htarget hnull hcast
    rw [floatAsI64, hnum] at h
    rw [floatSaturates, hnum] at hsat
    refine (castsTo_congr (intValue_saturate ?_)).mp h
    rcases Bool.and_eq_false_iff.mp hsat with htarget | hfits
    · exact Or.inl (by simpa using htarget)
    · exact Or.inr fun hnone => by simp [hnone] at hfits
  have hint {k : Int64} (hk : x = k.toInt) (hcast : castToI64 rt v = .ok k) :
      CastsTo rt v target (roundAway x) := by
    rw [hk, roundAway_intCast]
    exact castsTo_of_castToI64 htarget hnull hcast
  cases v <;> try cases hv
  case int16 k => exact hint (by rw [Int16.toInt_toInt64]; exact (Option.some.inj hx).symm) rfl
  case int32 k => exact hint (by rw [Int32.toInt_toInt64]; exact (Option.some.inj hx).symm) rfl
  case int64 k => exact hint (Option.some.inj hx).symm rfl
  case float32 bits => exact hfloat hx hsat (congrArg _ (i64OfF32_f32Round bits))
  case float64 bits => exact hfloat hx hsat (congrArg _ (i64OfF64_f64Round bits))
  -- a decimal is rounded half to even, then fitted
  case numeric d =>
    obtain rfl := Option.some.inj hx
    rw [show (Value.numeric d).rounding d.number = roundEven d.number from rfl]
    have hcast : castToI64 rt (.numeric d)
        = orCastErr rt (.numeric d) "integer" (fitI64 (roundEven d.number)) := by
      rw [castToI64, law]
    cases hfit : fitI64 (roundEven d.number) with
    | none =>
      rw [CastsTo, intValue_none hfit]
      exact ⟨_, evalCast_of_castToI64_error htarget hnull (hcast.trans (by rw [hfit]; rfl))⟩
    | some k =>
      have hk : k.toInt = roundEven d.number := by
        unfold fitI64 at hfit
        split at hfit <;> cases hfit
        exact Int64.toInt_ofInt_of_le (by omega) (by omega)
      rw [← hk]
      exact castsTo_of_castToI64 htarget hnull (hcast.trans (by rw [hfit]; rfl))

theorem evalCast_notNumber (hv : v.isNumeric = true)
    (htarget : target.isInteger = true) (hsat : Saturates v target = false)
    (hx : v.number = none) : ∃ msg, evalCast rt v target = typeError msg := by
  have hnull : v.isNull = false := by
    cases v <;> first | rfl | cases hv
  have hfloat {k p scale : Nat} {bits : BitVec (k + 1)} (hnum : floatNumber p scale bits = none)
      (hsat : floatSaturates p scale bits target = false)
      (hcast : castToI64 rt v = .ok (floatAsI64 p scale bits)) :
      ∃ msg, evalCast rt v target = typeError msg := by
    have h := castsTo_of_castToI64 htarget hnull hcast
    rw [floatSaturates, hnum] at hsat
    simp only [Bool.or_eq_false_iff, bne_eq_false_iff_eq, beq_eq_false_iff_ne] at hsat
    rw [floatAsI64, hnum] at h
    simp only [hsat.2, ne_eq, not_true_eq_false, if_false] at h
    have hout : intValue target (if bits.msb then Int64.minValue else Int64.maxValue).toInt
      = none := by
      cases target <;> cases htarget <;> cases bits.msb <;> first | rfl | exact absurd rfl hsat.1
    rw [CastsTo, hout] at h
    exact h
  cases v <;> try cases hv
  case float32 bits => exact hfloat hx hsat (congrArg _ (i64OfF32_f32Round bits))
  case float64 bits => exact hfloat hx hsat (congrArg _ (i64OfF64_f64Round bits))
  all_goals cases hx

theorem castRounds_of_not_saturates (law : RoundsDecimals rt) (hv : v.isNumeric = true)
    (htarget : target.isInteger = true) (hsat : Saturates v target = false) :
    CastRounds rt v target := by
  rw [CastRounds]
  cases hx : v.number with
  | none => exact evalCast_notNumber hv htarget hsat hx
  | some x =>
    refine ⟨v.rounding x, ?_, castsTo_rounding law hv htarget hsat hx⟩
    rw [Value.rounding]
    split
    · exact roundEven_near x
    · exact roundAway_near x

theorem evalCast_int64 {k : Int64} (hnull : v.isNull = false) (h : castToI64 rt v = .ok k) :
    evalCast rt v .int64 = .ok (.int64 k) := by
  have hcast := @castsTo_of_castToI64 rt v .int64 k rfl hnull h
  rw [CastsTo, intValue, fitI64_toInt] at hcast
  exact hcast

theorem intValue_of_near {k p scale : Nat} {bits : BitVec (k + 1)} (hp : p ≤ 52)
    (hx : floatNumber p scale bits = some x) (hout : fitI64 (roundAway x) = none)
    (hnear : |x - n| ≤ 1 / 2) : intValue target n = none := by
  have hlarge : 2 ^ p ≤ |x| := by
    have hrange : ¬ (-2 ^ 63 ≤ roundAway x ∧ roundAway x < 2 ^ 63) := fun hin => by
      rw [fitI64, if_pos hin] at hout
      cases hout
    have hpow : (2 : ℚ) ^ p ≤ 2 ^ 53 := pow_le_pow_right₀ (by norm_num) (by omega)
    have hfar : (2 ^ 63 : ℚ) ≤ |(roundAway x : ℚ)| := by
      rw [le_abs]
      rcases Int.lt_or_le (roundAway x) (-2 ^ 63) with h | h
      · right
        have : (roundAway x : ℚ) < -2 ^ 63 := by exact_mod_cast h
        linarith
      · left
        have : 2 ^ 63 ≤ roundAway x := by omega
        exact_mod_cast this
    have htri := abs_sub_abs_le_abs_sub (roundAway x : ℚ) x
    have hsub : |(roundAway x : ℚ) - x| ≤ 1 / 2 := by
      rw [abs_sub_comm]
      exact roundAway_near x
    have : (2 : ℚ) ^ 53 ≤ 2 ^ 63 - 1 / 2 := by norm_num
    linarith
  -- beyond its precision a float has no fraction
  obtain ⟨m, rfl⟩ := integer_of_floatNumber hx hlarge
  rw [roundAway_intCast] at hout
  have hnm : n = m := by
    have h : |m - n| < 1 := by
      have h' : |(m : ℚ) - n| < 1 := by linarith
      exact_mod_cast h'
    rw [abs_lt] at h
    omega
  rw [hnm]
  exact intValue_none hout

theorem not_castRounds_of_saturates (htarget : target.isInteger = true)
    (hsat : Saturates v target = true) : ¬ CastRounds rt v target := by
  have hfloat {k p scale : Nat} {bits : BitVec (k + 1)} (hp : p ≤ 52) (hnull : v.isNull = false)
      (hnum : v.number = floatNumber p scale bits)
        (hsat : floatSaturates p scale bits target = true)
      (hcast : castToI64 rt v = .ok (floatAsI64 p scale bits)) : ¬ CastRounds rt v target := by
    rw [CastRounds, hnum]
    rw [floatSaturates] at hsat
    cases hx : floatNumber p scale bits with
    | some x =>
      rw [hx] at hsat
      simp only [Bool.and_eq_true, beq_iff_eq, Option.isNone_iff_eq_none] at hsat
      obtain ⟨rfl, hout⟩ := hsat
      rintro ⟨n, hnear, hn⟩
      rw [CastsTo, intValue_of_near hp hx hout hnear] at hn
      obtain ⟨msg, hmsg⟩ := hn
      cases (evalCast_int64 hnull hcast).symm.trans hmsg
    | none =>
      rw [hx] at hsat
      rintro ⟨msg, hmsg⟩
      by_cases hnan : bits.toNat % 2 ^ p = 0
      · have : target = .int64 := by simpa [hnan] using hsat
        subst this
        cases (evalCast_int64 hnull hcast).symm.trans hmsg
      · -- a `NaN` becomes zero
        have hzero : floatAsI64 p scale bits = 0 := by
          simp [floatAsI64, hx, hnan]
        have h := castsTo_of_castToI64 htarget hnull hcast
        rw [hzero] at h
        cases target <;> cases htarget <;>
          cases (show evalCast rt v _ = .ok _ from h).symm.trans hmsg
  cases v <;> try cases hsat
  case float32 bits => exact hfloat (by omega) rfl rfl hsat (congrArg _ (i64OfF32_f32Round bits))
  case float64 bits => exact hfloat (by omega) rfl rfl hsat (congrArg _ (i64OfF64_f64Round bits))

theorem sameResult_iff_toOption {x y : Outcome Value} :
    SameResult x y ↔ x.toOption = y.toOption := by
  cases x <;> cases y <;> simp [SameResult, Except.toOption, eq_comm]

theorem CastsTo.toOption (h : CastsTo rt v target n) :
    (evalCast rt v target).toOption = intValue target n := by
  rw [CastsTo] at h
  split at h
  · rename_i hw
    rw [h, hw]
    rfl
  · rename_i hw
    obtain ⟨msg, h⟩ := h
    rw [h, hw]
    rfl

theorem sameResult_of_number (law : RoundsDecimals rt) (hu : u.isNumeric = true)
    (hv : v.isNumeric = true) (htarget : target.isInteger = true)
    (hsatu : Saturates u target = false) (hsatv : Saturates v target = false)
    (hxu : u.number = some x) (hxv : v.number = some x) :
    SameResult (evalCast rt u target) (evalCast rt v target) ↔ ¬ RoundsApart u v target := by
  rw [sameResult_iff_toOption, (castsTo_rounding law hu htarget hsatu hxu).toOption,
    (castsTo_rounding law hv htarget hsatv hxv).toOption, intValue_eq_iff, RoundsApart, hxu, hxv]
  cases hdu : u.isDecimal <;> cases hdv : v.isDecimal <;>
    simp only [Value.rounding, hdu, hdv, Bool.false_eq_true, if_false, if_true, true_or, ne_eq,
      not_true_eq_false, false_and, not_false_eq_true, reduceCtorEq, Option.some.injEq,
      exists_eq_left', true_and]
  · tauto
  · rw [eq_comm]
    tauto

/-- **Integer casts depend on the number alone**, and round it, exactly where no side
    saturates and the two sides are not a decimal and a float on a tie. -/
theorem integer_casts_depend_on_number {rt : Runtime} (law : RoundsDecimals rt) {u v : Value}
    {target : LogicalType} (hu : u.isNumeric = true) (hv : v.isNumeric = true)
    (htarget : target.isInteger = true) :
    (CastRounds rt u target ∧ CastRounds rt v target
        ∧ (∀ x, u.number = some x → v.number = some x →
            SameResult (evalCast rt u target) (evalCast rt v target)))
      ↔ Saturates u target = false ∧ Saturates v target = false ∧ ¬ RoundsApart u v target := by
  constructor
  · rintro ⟨hru, hrv, hsame⟩
    have hsatu : Saturates u target = false :=
      Bool.eq_false_iff.mpr fun h => not_castRounds_of_saturates htarget h hru
    have hsatv : Saturates v target = false :=
      Bool.eq_false_iff.mpr fun h => not_castRounds_of_saturates htarget h hrv
    refine ⟨hsatu, hsatv, fun hapart => ?_⟩
    obtain ⟨-, x, hxu, hxv, -⟩ := id hapart
    exact (sameResult_of_number law hu hv htarget hsatu hsatv hxu hxv).mp (hsame x hxu hxv) hapart
  · rintro ⟨hsatu, hsatv, hapart⟩
    exact ⟨castRounds_of_not_saturates law hu htarget hsatu,
      castRounds_of_not_saturates law hv htarget hsatv, fun x hxu hxv =>
        (sameResult_of_number law hu hv htarget hsatu hsatv hxu hxv).mpr hapart⟩

def castingRuntime : Runtime :=
  { (default : Runtime) with decimalToI64 := fun d => fitI64 (roundEven d.number) }

theorem roundsDecimals_castingRuntime : RoundsDecimals castingRuntime :=
  fun _ => rfl

def tenths (n : UInt8) : Decimal where
  negative := false
  mantissa := n.toNat
  scale := 1
  mantissa_lt := Nat.lt_trans n.toNat_lt (by norm_num)
  scale_le := by omega

/-- Seven halves, as a double and as a decimal, round to four. -/
theorem integer_casts_seven_halves :
    SameResult (evalCast castingRuntime (.float64 0x400C000000000000) .int64)
      (evalCast castingRuntime (.numeric (tenths 35)) .int64) := by
  have hfloat : (Value.float64 0x400C000000000000).number = some (7 / 2) := by decide +kernel
  have hdecimal : (Value.numeric (tenths 35)).number = some (7 / 2) := by
    decide +kernel
  obtain ⟨-, -, hsame⟩ :=
    (integer_casts_depend_on_number roundsDecimals_castingRuntime rfl rfl rfl).mpr
    ⟨show Saturates (.float64 0x400C000000000000) .int64 = false by decide +kernel,
      show Saturates (.numeric (tenths 35)) .int64 = false by decide +kernel,
      by
        rintro ⟨-, x, hx, -, hne, -⟩
        obtain rfl := Option.some.inj (hfloat.symm.trans hx)
        exact hne (by decide +kernel)⟩
  exact hsame _ hfloat hdecimal

/-- **Five halves cast to three and to two**; a NaN casts to zero, and the double after
    the 64-bit range to the last integer in it. -/
theorem integer_casts_five_halves :
    RoundsDecimals castingRuntime
      ∧ (Value.float64 0x4004000000000000).number = some (5 / 2)
      ∧ (Value.numeric (tenths 25)).number = some (5 / 2)
      ∧ evalCast castingRuntime (.float64 0x4004000000000000) .int64 = .ok (.int64 3)
      ∧ evalCast castingRuntime (.numeric (tenths 25)) .int64
        = .ok (.int64 2)
      ∧ evalCast castingRuntime (.float64 0x7FF8000000000000) .int16 = .ok (.int16 0)
      ∧ (Value.float64 0x43E0000000000000).number = some (2 ^ 63)
      ∧ evalCast castingRuntime (.float64 0x43E0000000000000) .int64
        = .ok (.int64 9223372036854775807) :=
  ⟨roundsDecimals_castingRuntime, by decide +kernel, by decide +kernel,
    evalCast_int64 rfl (by decide +kernel), evalCast_int64 rfl (by decide +kernel),
    @castsTo_of_castToI64 castingRuntime _ .int16 0 rfl rfl (by decide +kernel), by decide +kernel,
    evalCast_int64 rfl (by decide +kernel)⟩

end StrataDb.Sql
