import Mathlib.Data.Finset.Max
import Mathlib.Data.Rat.Defs
import Mathlib.Algebra.Order.Ring.Abs
import Mathlib.Data.Int.Interval
import Mathlib.Tactic.Linarith
import Mathlib.Tactic.Ring
import Mathlib.Algebra.Order.Field.Rat
import Mathlib.Algebra.Ring.Parity
import Mathlib.Order.Interval.Finset.Basic
import StrataDb.FloatBits

/-!
# The finite numbers of a binary floating-point format, and rounding to them

A format has `p` bits of fraction and magnitudes below `bound`. A number stands at a place of the
total order, a negated magnitude below zero, so that the two zeros are `-1` and `0`; `amount p t`
is the multiple of the smallest number at `t`. `Nearest` is rounding to nearest, ties to even; it
determines the place of every number but zero, and is monotone.
-/

namespace StrataDb.FloatGrid

open FloatBits

/-! ### Numbers by their places -/

def magnitude (t : ℤ) : ℕ :=
  if 0 ≤ t then t.toNat else (-t - 1).toNat

def amount (p : ℕ) (t : ℤ) : ℤ :=
  if 0 ≤ t then units p (magnitude t) else -units p (magnitude t)

theorem units_succ (p n : ℕ) : units p (n + 1) = units p n + 2 ^ (n / 2 ^ p - 1) := by
  have hpos : 0 < 2 ^ p := Nat.pow_pos (by omega)
  have hsplit := Nat.div_add_mod n (2 ^ p)
  have hmod := Nat.mod_lt n hpos
  set e := n / 2 ^ p with he
  set m := n % 2 ^ p with hm
  by_cases hcarry : m + 1 < 2 ^ p
  · -- within a binade
    have hdiv : (n + 1) / 2 ^ p = e := by
      rw [← hsplit, add_assoc, Nat.mul_add_div hpos, Nat.div_eq_of_lt hcarry, add_zero]
    have hrem : (n + 1) % 2 ^ p = m + 1 := by
      rw [← hsplit, add_assoc, Nat.mul_add_mod, Nat.mod_eq_of_lt hcarry]
    rw [units, units, hdiv, hrem, ← he, ← hm]
    split
    · rename_i hzero
      rw [hzero]
      rfl
    · ring
  · -- into the next one
    have hlast : m + 1 = 2 ^ p := by omega
    have hnext : n + 1 = 2 ^ p * (e + 1) := by rw [← hsplit, add_assoc, hlast]; ring
    have hdiv : (n + 1) / 2 ^ p = e + 1 := by rw [hnext, Nat.mul_div_cancel_left _ hpos]
    have hrem : (n + 1) % 2 ^ p = 0 := by rw [hnext, Nat.mul_mod_right]
    rw [units, units, hdiv, hrem, ← he, ← hm, if_neg (Nat.succ_ne_zero e), add_zero,
      Nat.add_sub_cancel]
    split
    · rename_i hzero
      rw [hzero] at hsplit ⊢
      simp only [mul_zero, zero_add] at hsplit
      simp only [pow_zero, mul_one, Nat.zero_sub]
      omega
    · rename_i hzero
      obtain ⟨k, hk⟩ := Nat.exists_eq_succ_of_ne_zero hzero
      rw [hk, Nat.succ_eq_add_one, Nat.add_sub_cancel, ← hlast, pow_succ]
      ring

theorem units_strictMono (p : ℕ) : StrictMono (units p) := by
  apply strictMono_nat_of_lt_succ
  intro n
  rw [units_succ]
  exact Nat.lt_add_of_pos_right (Nat.pow_pos (by omega))

@[simp] theorem units_zero (p : ℕ) : units p 0 = 0 := by
  simp [units]

theorem dvd_units {p n k : ℕ} (h : 2 ^ (p + k) ≤ units p n) : 2 ^ k ∣ units p n := by
  have hpos : 0 < 2 ^ p := Nat.pow_pos (by omega)
  rw [units] at h ⊢
  split at h
  · rename_i hzero
    have hlt : n < 2 ^ p := (Nat.div_eq_zero_iff_lt hpos).mp hzero
    have hle : 2 ^ p ≤ 2 ^ (p + k) := Nat.pow_le_pow_right (by omega) (by omega)
    omega
  · rename_i hzero
    rw [if_neg hzero]
    have hmod := Nat.mod_lt n hpos
    have hlt : (2 ^ p + n % 2 ^ p) * 2 ^ (n / 2 ^ p - 1) < 2 ^ (p + 1 + (n / 2 ^ p - 1)) := by
      rw [pow_add, pow_succ]
      exact Nat.mul_lt_mul_of_pos_right (by omega) (Nat.pow_pos (by omega))
    have hexp := (Nat.pow_lt_pow_iff_right (by omega : 1 < 2)).mp (lt_of_le_of_lt h hlt)
    exact Dvd.dvd.mul_left (Nat.pow_dvd_pow 2 (by omega)) _

/-! ### The place of an amount -/

theorem floorPlace_spec (p m : ℕ) :
    floorPlace p m / 2 ^ p - 1 = m.log2 - p ∧
      units p (floorPlace p m) = m / 2 ^ (m.log2 - p) * 2 ^ (m.log2 - p) := by
  have hpos : 0 < 2 ^ p := Nat.pow_pos (by omega)
  rw [floorPlace]
  rcases Nat.eq_zero_or_pos (m.log2 - p) with hzero | hup
  · -- below two binades every whole amount has a place
    have hlt : m < 2 ^ p * 2 := by
      rw [← pow_succ]
      exact Nat.lt_log2_self.trans_le (Nat.pow_le_pow_right (by omega) (by omega))
    have hdiv : m / 2 ^ p < 2 := Nat.div_lt_of_lt_mul hlt
    rw [hzero, zero_mul, zero_add, pow_zero, Nat.div_one, mul_one, units]
    refine ⟨by generalize m / 2 ^ p = d at hdiv; omega, ?_⟩
    split
    · rfl
    · rename_i hge
      have hone : m / 2 ^ p = 1 := by
        generalize m / 2 ^ p = d at hdiv hge
        omega
      have hsplit := Nat.div_add_mod m (2 ^ p)
      rw [hone, mul_one] at hsplit
      rw [hone, Nat.sub_self, pow_zero, mul_one, hsplit]
  · have hm : m ≠ 0 := by
      rintro rfl
      simp at hup
    set e := m.log2 - p with he
    have hlo : 2 ^ p * 2 ^ e ≤ m := by
      rw [← pow_add, show p + e = m.log2 by omega]
      exact Nat.log2_self_le hm
    have hhi : m < 2 ^ e * (2 ^ p * 2) := by
      rw [← pow_succ, ← pow_add, show e + (p + 1) = m.log2 + 1 by omega]
      exact Nat.lt_log2_self
    have hq : 2 ^ p ≤ m / 2 ^ e := (Nat.le_div_iff_mul_le (Nat.pow_pos (by omega))).mpr hlo
    have hq' : m / 2 ^ e < 2 ^ p * 2 := Nat.div_lt_of_lt_mul hhi
    have hindex : e * 2 ^ p + m / 2 ^ e = 2 ^ p * (e + 1) + (m / 2 ^ e - 2 ^ p) := by
      rw [mul_add, mul_one, mul_comm]
      omega
    have hdiv : (e * 2 ^ p + m / 2 ^ e) / 2 ^ p = e + 1 := by
      rw [hindex, Nat.mul_add_div hpos, Nat.div_eq_of_lt (by omega), add_zero]
    have hmod : (e * 2 ^ p + m / 2 ^ e) % 2 ^ p = m / 2 ^ e - 2 ^ p := by
      rw [hindex, Nat.mul_add_mod, Nat.mod_eq_of_lt (by omega)]
    rw [units, hdiv, hmod, if_neg (Nat.succ_ne_zero e), Nat.add_sub_cancel, Nat.add_sub_cancel' hq]
    exact ⟨rfl, rfl⟩

theorem units_floorPlace_le (p m : ℕ) : units p (floorPlace p m) ≤ m := by
  rw [(floorPlace_spec p m).2]
  exact Nat.div_mul_le_self _ _

theorem units_floorPlace_succ (p m : ℕ) :
    units p (floorPlace p m + 1) = units p (floorPlace p m) + 2 ^ (m.log2 - p) := by
  rw [units_succ, (floorPlace_spec p m).1]

/-- An amount that its leading bits make up has a place. -/
theorem units_floorPlace {p m k : ℕ} (hdvd : 2 ^ k ∣ m) (hlt : m < 2 ^ (p + 1 + k)) :
    units p (floorPlace p m) = m := by
  have hlog : m.log2 - p ≤ k := by
    rcases Nat.eq_zero_or_pos m with rfl | hm
    · simp
    · have := (Nat.log2_lt hm.ne').mpr hlt
      omega
  rw [(floorPlace_spec p m).2]
  exact Nat.div_mul_cancel ((Nat.pow_dvd_pow 2 hlog).trans hdvd)

variable {p bound : ℕ} {q r : ℚ} {s t : ℤ}

theorem amount_nonneg (h : 0 ≤ t) : amount p t = units p t.toNat := by
  rw [amount, magnitude, if_pos h, if_pos h]

theorem amount_neg (h : t < 0) : amount p t = -units p (-t - 1).toNat := by
  rw [amount, magnitude, if_neg (Int.not_le.mpr h), if_neg (Int.not_le.mpr h)]

theorem dvd_amount {k : ℕ} (h : 2 ^ (p + k) ≤ |amount p t|) : 2 ^ k ∣ amount p t := by
  have hunits : |amount p t| = units p (magnitude t) := by
    rw [amount]
    split
    · exact Nat.abs_cast _
    · rw [abs_neg, Nat.abs_cast]
  rw [hunits] at h
  rw [← dvd_abs, hunits]
  exact_mod_cast dvd_units (by exact_mod_cast h)

theorem amount_lt_succ (h : t ≠ -1) : amount p t < amount p (t + 1) := by
  rcases Int.lt_or_le t 0 with hneg | hnonneg
  · rw [amount_neg hneg, amount_neg (by omega), Int.neg_lt_neg_iff, Int.ofNat_lt]
    exact units_strictMono p (by omega)
  · rw [amount_nonneg hnonneg, amount_nonneg (by omega), Int.ofNat_lt]
    exact units_strictMono p (by omega)

theorem amount_zeros (p : ℕ) : amount p (-1) = 0 ∧ amount p 0 = 0 := by
  rw [amount_neg (by omega), amount_nonneg (by omega)]
  simp

theorem amount_le_succ (p : ℕ) (t : ℤ) : amount p t ≤ amount p (t + 1) := by
  by_cases h : t = -1
  · subst h
    exact le_of_eq ((amount_zeros p).1.trans (amount_zeros p).2.symm)
  · exact le_of_lt (amount_lt_succ h)

theorem amount_mono (p : ℕ) {t s : ℤ} (h : t ≤ s) : amount p t ≤ amount p s := by
  induction s, h using Int.leInduction with
  | base => exact le_refl _
  | succ s _ ih => exact ih.trans (amount_le_succ p s)

theorem lt_of_amount_lt (h : amount p t < amount p s) : t < s :=
  lt_of_not_ge fun hle => absurd (amount_mono p hle) (not_le.mpr h)

theorem eq_of_amount_eq (h : amount p t = amount p s) (hsign : 0 ≤ t ↔ 0 ≤ s) : t = s := by
  have hlt {t s : ℤ} (h : amount p t = amount p s) (hsign : 0 ≤ t ↔ 0 ≤ s) : ¬ t < s := by
    intro hts
    have hgap :=
      (amount_lt_succ (by omega : t ≠ -1)).trans_le (amount_mono p (by omega : t + 1 ≤ s))
    omega
  have hts := hlt h hsign
  have hst := hlt h.symm hsign.symm
  omega

/-! ### Rounding to nearest, ties to even -/

def Finite (bound : ℕ) (t : ℤ) : Prop :=
  -bound ≤ t ∧ t < bound

def Closest (p bound : ℕ) (q : ℚ) (t : ℤ) : Prop :=
  Finite bound t ∧ ∀ s, Finite bound s → |(amount p t : ℚ) - q| ≤ |(amount p s : ℚ) - q|

structure Nearest (p bound : ℕ) (q : ℚ) (t : ℤ) : Prop where
  closest : Closest p bound q t
  even : ∀ s, Closest p bound q s → amount p s ≠ amount p t → magnitude t % 2 = 0
  pos : 0 < q → 0 ≤ t
  neg : q < 0 → t < 0

theorem abs_sub_le_iff_of_lt {x y : ℚ} (h : x < y) : |x - q| ≤ |y - q| ↔ 2 * q ≤ x + y := by
  rw [← sq_le_sq]
  constructor
  · intro hsq
    nlinarith
  · intro hmid
    nlinarith

theorem abs_sub_le_iff_of_gt {x y : ℚ} (h : x < y) : |y - q| ≤ |x - q| ↔ x + y ≤ 2 * q := by
  rw [← sq_le_sq]
  constructor
  · intro hsq
    nlinarith
  · intro hmid
    nlinarith

theorem Closest.mono (ht : Closest p bound q t) (hs : Closest p bound r s) (hqr : q < r) :
    amount p t ≤ amount p s := by
  by_contra hlt
  have hlt' : (amount p s : ℚ) < amount p t := by exact_mod_cast not_le.mp hlt
  have hq := (abs_sub_le_iff_of_gt hlt').mp (ht.2 s hs.1)
  have hr := (abs_sub_le_iff_of_lt hlt').mp (hs.2 t ht.1)
  linarith

/-- Two closest numbers of different amounts are neighbours. -/
theorem Closest.next (ht : Closest p bound q t) (hs : Closest p bound q s)
    (hlt : amount p t < amount p s) {u : ℤ} (htu : amount p t < amount p u) :
    amount p s ≤ amount p u := by
  have hlt' : (amount p t : ℚ) < amount p s := by exact_mod_cast hlt
  have hmid : 2 * q = amount p t + amount p s :=
    le_antisymm ((abs_sub_le_iff_of_lt hlt').mp (ht.2 s hs.1))
      ((abs_sub_le_iff_of_gt hlt').mp (hs.2 t ht.1))
  by_contra hus
  have hus := not_le.mp hus
  have hfin : Finite bound u :=
    ⟨ht.1.1.trans (lt_of_amount_lt htu).le, (lt_of_amount_lt hus).trans hs.1.2⟩
  have htu' : (amount p t : ℚ) < amount p u := by exact_mod_cast htu
  have hus' : (amount p u : ℚ) < amount p s := by exact_mod_cast hus
  have hclose := (abs_sub_le_iff_of_lt htu').mp (ht.2 u hfin)
  linarith

/-- **One of two neighbours is odd.** -/
theorem odd_of_next (hlt : amount p t < amount p s)
    (hnone : ∀ u, amount p t < amount p u → amount p s ≤ amount p u) :
    (magnitude t + magnitude s) % 2 = 1 := by
  have hts := lt_of_amount_lt hlt
  obtain ⟨hneg, hzero⟩ := amount_zeros p
  have hstep (u : ℤ) (hu : u ≠ -1) := @amount_lt_succ p u hu
  by_cases hminus : t = -1
  · -- from the negative zero up: the next number is the smallest one
    subst hminus
    have hone := hnone 1 (by rw [hneg, ← hzero]; exact hstep 0 (by omega))
    have hle : s ≤ 1 := by
      by_contra hgt
      have := hstep 1 (by omega)
      have := amount_mono p (show (1 : ℤ) + 1 ≤ s by omega)
      omega
    have : s ≠ 0 := fun h => by subst h; omega
    have : s = 1 := by omega
    subst this
    rfl
  · have hnext := hnone (t + 1) (hstep t hminus)
    by_cases hgap : t + 1 < s
    · -- only the two zeros can lie that close: `t` is the number before them
      have hminus' : t + 1 = -1 := by
        by_contra hne
        have := hstep (t + 1) hne
        have := amount_mono p (show t + 1 + 1 ≤ s by omega)
        omega
      have hzero' : s = 0 := by
        by_contra hne
        have := hstep 0 (by omega)
        have := amount_mono p (show (0 : ℤ) + 1 ≤ s by omega)
        rw [hminus'] at hnext
        omega
      have : t = -2 := by omega
      subst this hzero'
      rfl
    · have : s = t + 1 := by omega
      subst this
      unfold magnitude
      split <;> split <;> omega

theorem Closest.parity (ht : Closest p bound q t) (hs : Closest p bound q s)
    (hlt : amount p t < amount p s) : (magnitude t + magnitude s) % 2 = 1 :=
  odd_of_next hlt fun _ => ht.next hs hlt

theorem Nearest.amount_eq (ht : Nearest p bound q t) (hs : Nearest p bound q s) :
    amount p t = amount p s := by
  have hnot {t s : ℤ} (ht : Nearest p bound q t) (hs : Nearest p bound q s) :
      ¬ amount p t < amount p s := by
    intro hlt
    have hparity := ht.closest.parity hs.closest hlt
    have hevent := ht.even s hs.closest (ne_of_gt hlt)
    have hevens := hs.even t ht.closest (ne_of_lt hlt)
    omega
  have hts := hnot ht hs
  have hst := hnot hs ht
  omega

/-- **A number other than zero is rounded to one place.** -/
theorem Nearest.unique (ht : Nearest p bound q t) (hs : Nearest p bound q s) (hq : q ≠ 0) :
    t = s := by
  refine eq_of_amount_eq (ht.amount_eq hs) ?_
  rcases lt_or_gt_of_ne hq with hneg | hpos
  · have htneg := ht.neg hneg
    have hsneg := hs.neg hneg
    omega
  · exact iff_of_true (ht.pos hpos) (hs.pos hpos)

theorem Nearest.mono (ht : Nearest p bound q t) (hs : Nearest p bound r s) (hqr : q < r) :
    t ≤ s := by
  have hamount := ht.closest.mono hs.closest hqr
  by_contra hlt
  have hst := not_le.mp hlt
  have heq : amount p s = amount p t := le_antisymm (amount_mono p hst.le) hamount
  by_cases hsign : 0 ≤ s ↔ 0 ≤ t
  · exact absurd (eq_of_amount_eq heq hsign) (ne_of_lt hst)
  · -- below and above zero: the numbers have the signs of the places
    have hq : ¬ q < 0 := fun h => by have := ht.neg h; omega
    have hr : ¬ 0 < r := fun h => by have := hs.pos h; omega
    exact absurd (lt_of_le_of_lt (not_lt.mp hq) hqr) hr

theorem Nearest.zero (ht : Nearest p bound 0 t) (hbound : 0 < bound) : t = -1 ∨ t = 0 := by
  obtain ⟨hneg, hzero⟩ := amount_zeros p
  have hle := ht.closest.2 0 ⟨by omega, by omega⟩
  rw [hzero, Int.cast_zero, sub_zero, sub_zero, abs_zero] at hle
  have heq : amount p t = 0 := by exact_mod_cast abs_eq_zero.mp (le_antisymm hle (abs_nonneg _))
  rcases Int.lt_or_le t 0 with hneg' | hnonneg
  · exact Or.inl (eq_of_amount_eq (heq.trans hneg.symm) (by omega))
  · exact Or.inr (eq_of_amount_eq (heq.trans hzero.symm) (by omega))

/-- Between two neighbours the closer one is nearest, and on a tie the even one. -/
theorem nearest_between {u : ℤ} (hpos : 0 ≤ t) (hfin : Finite bound (t + 1))
    (hlo : (amount p t : ℚ) ≤ q) (hhi : q ≤ amount p (t + 1))
    (hbest : u = t ∧ 2 * q < amount p t + amount p (t + 1)
      ∨ u = t + 1 ∧ amount p t + amount p (t + 1) < 2 * q
      ∨ (u = t ∨ u = t + 1) ∧ 2 * q = amount p t + amount p (t + 1) ∧ magnitude u % 2 = 0) :
    Nearest p bound q u := by
  have hends : u = t ∨ u = t + 1 := by tauto
  have hleft {x : ℚ} (hx : x ≤ amount p t) : |x - q| = q - x := by
    rw [abs_of_nonpos (by linarith), neg_sub]
  have hright {x : ℚ} (hx : (amount p (t + 1) : ℚ) ≤ x) : |x - q| = x - q :=
    abs_of_nonneg (by linarith)
  have hside (s : ℤ) : ((amount p s : ℚ) ≤ amount p t ∧ |(amount p s : ℚ) - q| = q - amount p s)
      ∨ ((amount p (t + 1) : ℚ) ≤ amount p s ∧ |(amount p s : ℚ) - q| = amount p s - q) := by
    rcases Int.lt_or_le t s with hts | hst
    · have hup : (amount p (t + 1) : ℚ) ≤ amount p s := by
        exact_mod_cast amount_mono p (by omega : t + 1 ≤ s)
      exact Or.inr ⟨hup, hright hup⟩
    · have hdown : (amount p s : ℚ) ≤ amount p t := by exact_mod_cast amount_mono p hst
      exact Or.inl ⟨hdown, hleft hdown⟩
  have hlower := hleft (le_refl (amount p t : ℚ))
  have hupper := hright (le_refl (amount p (t + 1) : ℚ))
  have hzero : (0 : ℚ) ≤ amount p t := by
    rw [amount_nonneg hpos]
    positivity
  have hfinite : Finite bound u := by
    unfold Finite at *
    omega
  refine ⟨⟨hfinite, fun s _ => ?_⟩, fun s hs hne => ?_, fun _ => by omega, fun hq => by linarith⟩
  · rcases hbest with ⟨rfl, h⟩ | ⟨rfl, h⟩ | ⟨rfl | rfl, h, -⟩ <;>
      rcases hside s with ⟨hle, hs⟩ | ⟨hle, hs⟩ <;>
      linarith
  · have hfar := hs.2 u hfinite
    have hne' : (amount p s : ℚ) ≠ amount p u := by exact_mod_cast hne
    rcases hbest with ⟨rfl, h⟩ | ⟨rfl, h⟩ | ⟨-, -, heven⟩
    · rcases hside s with ⟨hle, hs⟩ | ⟨hle, hs⟩
      · exact absurd (le_antisymm hle (by linarith)) hne'
      · linarith
    · rcases hside s with ⟨hle, hs⟩ | ⟨hle, hs⟩
      · linarith
      · exact absurd (le_antisymm (by linarith) hle) hne'
    · exact heven

theorem amount_mirror (t : ℤ) :
    amount p (-t - 1) = -amount p t ∧ magnitude (-t - 1) = magnitude t := by
  unfold amount magnitude
  rcases Int.lt_or_le t 0 with h | h
  · rw [if_pos (by omega), if_pos (by omega), if_neg (by omega), if_neg (by omega), neg_neg]
    exact ⟨rfl, rfl⟩
  · rw [if_neg (by omega), if_neg (by omega), if_pos h, if_pos h, show -(-t - 1) - 1 = t by omega]
    exact ⟨rfl, rfl⟩

theorem Closest.mirror (h : Closest p bound q t) : Closest p bound (-q) (-t - 1) := by
  refine ⟨by have := h.1; unfold Finite at *; omega, fun s hs => ?_⟩
  have hle := h.2 (-s - 1) (by unfold Finite at *; omega)
  rw [(amount_mirror s).1] at hle
  rw [(amount_mirror t).1]
  push_cast at hle ⊢
  rw [← abs_neg, ← abs_neg ((amount p s : ℚ) - -q)]
  convert hle using 2 <;> ring

theorem Nearest.mirror (h : Nearest p bound q t) : Nearest p bound (-q) (-t - 1) := by
  refine ⟨h.closest.mirror, fun s hs hne => ?_, fun hq => ?_, fun hq => ?_⟩
  · have hs' := hs.mirror
    rw [neg_neg] at hs'
    rw [(amount_mirror (p := p) t).2]
    refine h.even _ hs' fun heq => hne ?_
    rw [(amount_mirror s).1] at heq
    rw [(amount_mirror t).1, ← heq, neg_neg]
  · have := h.neg (by linarith)
    omega
  · have := h.pos (by linarith)
    omega

theorem amount_natCast (n : ℕ) : (amount p (n : ℤ) : ℚ) = units p n := by
  rw [amount_nonneg (Int.natCast_nonneg n), Int.toNat_natCast, Int.cast_natCast]

theorem magnitude_natCast (n : ℕ) : magnitude (n : ℤ) = n := by
  rw [magnitude, if_pos (Int.natCast_nonneg n), Int.toNat_natCast]

theorem nearest_nearestPlace {m : ℕ} (hp : 0 < p) (hm : m < units p (bound - 1)) :
    Nearest p bound m (nearestPlace p m) := by
  have hle := units_floorPlace_le p m
  have hsucc := units_floorPlace_succ p m
  have hplace : floorPlace p m < bound - 1 := (units_strictMono p).lt_iff_lt.mp (hle.trans_lt hm)
  have hsplit := Nat.div_add_mod' m (2 ^ (m.log2 - p))
  rw [← (floorPlace_spec p m).2] at hsplit
  have hmod := Nat.mod_lt m (Nat.pow_pos (n := m.log2 - p) (show 0 < 2 by omega))
  have heven : floorPlace p m % 2 = m / 2 ^ (m.log2 - p) % 2 := by
    obtain ⟨k, rfl⟩ := Nat.exists_eq_add_one_of_ne_zero hp.ne'
    rw [floorPlace, pow_succ, ← mul_assoc]
    omega
  have hbetween {u : ℤ} := @nearest_between p bound m (floorPlace p m) u
    (Int.natCast_nonneg _) (by unfold Finite; omega)
    (by rw [amount_natCast]; exact_mod_cast hle)
    (by
      rw [← Nat.cast_succ, amount_natCast]
      exact_mod_cast (by omega : m ≤ units p (floorPlace p m + 1)))
  rw [← Nat.cast_succ, amount_natCast, amount_natCast] at hbetween
  refine hbetween ?_
  simp only [nearestPlace]
  split
  · rename_i h
    rcases h with h | ⟨h, hq⟩
    · exact Or.inl
        ⟨rfl,
        by exact_mod_cast
        (by omega : 2 * m < units p (floorPlace p m) + units p (floorPlace p m + 1))⟩
    · refine Or.inr (Or.inr ⟨Or.inl rfl, ?_, by rw [magnitude_natCast]; omega⟩)
      exact_mod_cast (by omega : 2 * m = units p (floorPlace p m) + units p (floorPlace p m + 1))
  · rename_i h
    rcases Nat.lt_or_ge (2 ^ (m.log2 - p)) (2 * (m % 2 ^ (m.log2 - p))) with hup | hdown
    · exact Or.inr
        (Or.inl
        ⟨rfl,
        by exact_mod_cast
        (by omega : units p (floorPlace p m) + units p (floorPlace p m + 1) < 2 * m)⟩)
    · refine Or.inr (Or.inr ⟨Or.inr rfl, ?_, by rw [magnitude_natCast]; omega⟩)
      exact_mod_cast (by omega : 2 * m = units p (floorPlace p m) + units p (floorPlace p m + 1))

theorem nearest_int {z : ℤ} {unit : ℕ} (hp : 0 < p) (hm : z.natAbs * unit < units p (bound - 1)) :
    Nearest p bound (z * unit)
      (if z < 0 then -(nearestPlace p (z.natAbs * unit) : ℤ) - 1 else nearestPlace p
        (z.natAbs * unit)) := by
  have hnear := nearest_nearestPlace hp hm
  rw [Nat.cast_mul, Nat.cast_natAbs] at hnear
  split
  · rename_i hneg
    rw [abs_of_neg hneg, Int.cast_neg, neg_mul] at hnear
    simpa using hnear.mirror
  · rename_i hpos
    rwa [abs_of_nonneg (not_lt.mp hpos)] at hnear

/-- A closest number below zero of one above it is the negative zero. -/
theorem Closest.eq_neg_one (ht : Closest p bound q t) (hq : 0 < q) (hneg : t < 0) : t = -1 := by
  obtain ⟨hminus, hzero⟩ := amount_zeros p
  have hle : (amount p t : ℚ) ≤ 0 := by
    rw [← Int.cast_zero, ← hminus]
    exact_mod_cast amount_mono p (by omega : t ≤ -1)
  have hge : ¬ (amount p t : ℚ) < 0 := by
    intro hlt
    have hclose := ht.2 0 (by have := ht.1; unfold Finite at *; omega)
    have h := (abs_sub_le_iff_of_lt hlt).mp (by simpa [hzero] using hclose)
    linarith
  have heq : amount p t = 0 := by exact_mod_cast le_antisymm hle (not_lt.mp hge)
  exact eq_of_amount_eq (heq.trans hminus.symm) (by omega)

/-- A closest number on the wrong side of zero is a zero, and the other zero serves. -/
theorem Closest.signed (ht : Closest p bound q t) :
    ∃ u, amount p u = amount p t ∧ magnitude u = magnitude t ∧ Finite bound u
      ∧ (0 < q → 0 ≤ u) ∧ (q < 0 → u < 0) := by
  obtain ⟨hneg, hzero⟩ := amount_zeros p
  have hfin := ht.1
  by_cases hlow : 0 < q ∧ t < 0
  · obtain rfl := ht.eq_neg_one hlow.1 hlow.2
    exact ⟨0, hzero.trans hneg.symm, rfl, by unfold Finite at *; omega, fun _ => le_rfl,
      fun h => absurd hlow.1 (not_lt.mpr h.le)⟩
  by_cases hhigh : q < 0 ∧ 0 ≤ t
  · have hmirror := ht.mirror.eq_neg_one (by linarith [hhigh.1]) (by omega)
    obtain rfl : t = 0 := by omega
    exact ⟨-1, hneg.trans hzero.symm, rfl, by unfold Finite at *; omega,
      fun h => absurd hhigh.1 (not_lt.mpr h.le), fun _ => by omega⟩
  · exact ⟨t, rfl, rfl, hfin, fun h => not_lt.mp fun hlt => hlow ⟨h, hlt⟩,
      fun h => not_le.mp fun hle => hhigh ⟨h, hle⟩⟩

/-- A closest number whose magnitude is even, or that no other amount rivals, is the
    nearest one, up to the sign of a zero. -/
theorem Closest.nearest (ht : Closest p bound q t)
    (heven : ∀ s, Closest p bound q s → amount p s ≠ amount p t → magnitude t % 2 = 0) :
    ∃ u, Nearest p bound q u := by
  obtain ⟨u, hamount, hmag, hfin, hpos, hneg⟩ := ht.signed
  refine ⟨u, ⟨hfin, fun s hs => ?_⟩, fun s hs hne => ?_, hpos, hneg⟩
  · rw [hamount]
    exact ht.2 s hs
  · rw [hmag]
    exact heven s hs (hamount ▸ hne)

theorem Nearest.exists (hbound : 0 < bound) (q : ℚ) : ∃ t, Nearest p bound q t := by
  have hmem (t : ℤ) : t ∈ Finset.Ico (-bound : ℤ) bound ↔ Finite bound t := Finset.mem_Ico
  obtain ⟨t, hfin, hmin⟩ := Finset.exists_min_image (Finset.Ico (-bound : ℤ) bound)
    (fun t => |(amount p t : ℚ) - q|) ⟨0, Finset.mem_Ico.mpr (by omega)⟩
  have ht : Closest p bound q t :=
    ⟨(hmem t).mp hfin, fun s hs => hmin s ((hmem s).mpr hs)⟩
  by_cases heven : magnitude t % 2 = 0
  · exact ht.nearest fun _ _ _ => heven
  by_cases htie : ∃ s, Closest p bound q s ∧ amount p s ≠ amount p t
  · -- of two rivals the other one is even
    obtain ⟨s, hs, hne⟩ := htie
    apply hs.nearest
    intro _ _ _
    rcases lt_or_gt_of_ne hne with hlt | hlt
    · have := hs.parity ht hlt
      omega
    · have := ht.parity hs hlt
      omega
  · exact ht.nearest fun s hs hne => absurd ⟨s, hs, hne⟩ htie

end StrataDb.FloatGrid
