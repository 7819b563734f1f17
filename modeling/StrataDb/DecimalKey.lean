import StrataDb.Comparison

/-!
# The order-preserving key of a decimal (`crates/strata-db/src/storage/codec/decimal.rs`)

A number is `F × 10 ^ E` with `F` in `[0.1, 1)`. The key is a sign bucket, the exponent, the
digits in base 100, each raised by one, and a terminator; for a negative number the payload is
complemented. The exponent decides, and then the digits, left-aligned (`order_aligned`).
-/

namespace StrataDb.Sql

open ByteCodec LexOrder

namespace Decimal

def DEC_NEG : UInt8 := 0x03
def DEC_ZERO : UInt8 := 0x04
def DEC_POS : UInt8 := 0x05

def digits (d : Decimal) : List Nat :=
  (Nat.digits 10 d.mantissa).reverse

def exponent (d : Decimal) : Int :=
  d.digits.length - d.scale

def cents : List Nat → List Nat
  | d :: e :: ds => (d * 10 + e) :: cents ds
  | _ => []

def padded (ds : List Nat) : List Nat :=
  if ds.length % 2 = 1 then ds ++ [0] else ds

/-- The exponent byte, the base-100 digits from 1 to 100, and the terminator. -/
def payload (a : Decimal) : Bytes :=
  UInt8.ofNat (flipSign 8 a.exponent)
    :: ((cents (padded a.digits)).map fun cent => UInt8.ofNat (cent + 1)) ++ [0x00]

def signedKey (d : Decimal) : Bytes :=
  if d.isZero then
    [DEC_ZERO]
  else if d.negative then
    DEC_NEG :: d.abs.payload.map fun b => ~~~b
  else
    DEC_POS :: d.abs.payload

def encodeKey (d : Decimal) : Bytes :=
  d.normalize.signedKey

section Digits

variable (d : Decimal)

theorem digits_lt : ∀ e ∈ d.digits, e < 10 := by
  intro e he
  exact Nat.digits_lt_base (by omega) (List.mem_reverse.mp he)

theorem length_digits : d.digits.length = (Nat.digits 10 d.mantissa).length :=
  List.length_reverse

theorem mantissa_lt_pow : d.mantissa < 10 ^ d.digits.length := by
  rw [length_digits]
  exact Nat.lt_base_pow_length_digits (by omega)

theorem pow_le_mantissa (h : d.mantissa ≠ 0) : 10 ^ d.digits.length ≤ 10 * d.mantissa := by
  rw [length_digits]
  exact Nat.base_pow_length_digits_le 10 d.mantissa (by omega) h

theorem digits_length_pos (h : d.mantissa ≠ 0) : 0 < d.digits.length := by
  rw [length_digits, List.length_pos_iff, ne_eq, Nat.digits_eq_nil_iff_eq_zero]
  exact h

theorem digits_length_le : d.digits.length ≤ 29 := by
  rw [length_digits]
  exact (Nat.digits_length_le_iff (by omega) _).mpr (Nat.lt_trans d.mantissa_lt (by norm_num))

theorem aligned_digits {L : Nat} (hL : d.digits.length ≤ L) :
    aligned 10 L d.digits = d.mantissa * 10 ^ (L - d.digits.length) := by
  obtain ⟨k, rfl⟩ := Nat.le.dest hL
  rw [aligned_add, Nat.add_sub_cancel_left, length_digits, digits, aligned_reverse,
    Nat.ofDigits_digits]

theorem aligned_padded (b L : Nat) (ds : List Nat) : aligned b L (padded ds) = aligned b L ds := by
  rw [padded]
  split
  · exact aligned_concat_zero b L ds
  · rfl

theorem padded_even (ds : List Nat) : ∃ k, (padded ds).length = 2 * k := by
  rw [padded]
  split
  · exact ⟨(ds.length + 1) / 2, by rw [List.length_append, List.length_singleton]; omega⟩
  · exact ⟨ds.length / 2, by omega⟩

theorem padded_lt {ds : List Nat} (h : ∀ e ∈ ds, e < 10) : ∀ e ∈ padded ds, e < 10 := by
  intro e he
  rw [padded] at he
  split at he
  · rcases List.mem_append.mp he with he | he
    · exact h e he
    · simp only [List.mem_singleton] at he
      omega
  · exact h e he

theorem length_padded (ds : List Nat) : (padded ds).length = 2 * ((ds.length + 1) / 2) := by
  rw [padded]
  split
  · rw [List.length_append, List.length_singleton]
    omega
  · omega

theorem length_cents (ds : List Nat) : (cents ds).length = ds.length / 2 := by
  induction ds using cents.induct with
  | case1 d e ds ih => simp only [cents, List.length_cons, ih]; omega
  | case2 ds h =>
    rcases ds with _ | ⟨d, _ | ⟨e, ds⟩⟩
    · rfl
    · simp [cents]
    · exact absurd rfl (h d e ds)

theorem cents_lt {ds : List Nat} (h : ∀ e ∈ ds, e < 10) : ∀ c ∈ cents ds, c < 100 := by
  induction ds using cents.induct with
  | case1 d e ds ih =>
    simp only [List.forall_mem_cons, cents] at h ⊢
    exact ⟨by omega, ih h.2.2⟩
  | case2 ds hds =>
    rw [cents]
    · exact fun _ hc => absurd hc List.not_mem_nil
    · exact hds

theorem aligned_cents (L : Nat) {ds : List Nat} (heven : ∃ k, ds.length = 2 * k) :
    aligned 100 L (cents ds) = aligned 10 (2 * L) ds := by
  induction ds using cents.induct generalizing L with
  | case1 d e ds ih =>
    cases L with
    | zero => rfl
    | succ L =>
      have heven' : ∃ k, ds.length = 2 * k := by
        obtain ⟨k, hk⟩ := heven
        exact ⟨k - 1, by simp only [List.length_cons] at hk; omega⟩
      have hplaces : 2 * (L + 1) = 2 * L + 1 + 1 := by omega
      rw [cents, aligned, ih L heven', hplaces, aligned, aligned, Nat.pow_succ, Nat.pow_mul]
      ring
  | case2 ds hds =>
    rcases ds with _ | ⟨d, _ | ⟨e, ds⟩⟩
    · simp [cents]
    · obtain ⟨k, hk⟩ := heven
      simp only [List.length_singleton] at hk
      omega
    · exact absurd rfl (hds d e ds)

end Digits

/-! ### Comparing payloads -/

def Normal (d : Decimal) : Prop :=
  d.scale = 0 ∨ d.mantissa % 10 ≠ 0

theorem normal_normalize (d : Decimal) : d.normalize.Normal :=
  stripZeros_last d.mantissa d.scale

section Payloads

variable {a b : Decimal}

theorem exponent_bounds (ha : a.mantissa ≠ 0) : -2 ^ 7 ≤ a.exponent ∧ a.exponent < 2 ^ 7 := by
  have hpos := a.digits_length_pos ha
  have hle := a.digits_length_le
  have hscale := a.scale_le
  rw [exponent]
  omega

/-- **The exponent decides**: of two numbers, the one with the smaller exponent is
    the smaller one. -/
theorem exponent_decides (hb : b.mantissa ≠ 0) (h : a.exponent < b.exponent) :
    a.mantissa * 10 ^ b.scale < b.mantissa * 10 ^ a.scale := by
  have hplaces : a.digits.length + b.scale + 1 ≤ b.digits.length + a.scale := by
    simp only [exponent] at h
    omega
  have hlow : a.mantissa * 10 ^ b.scale < 10 ^ (a.digits.length + b.scale) := by
    rw [pow_add]
    exact Nat.mul_lt_mul_of_pos_right a.mantissa_lt_pow (Nat.pow_pos (by omega))
  have hhigh : 10 ^ (b.digits.length + a.scale) ≤ 10 * (b.mantissa * 10 ^ a.scale) := by
    rw [pow_add, ← mul_assoc]
    exact Nat.mul_le_mul_right _ (b.pow_le_mantissa hb)
  have hstep : 10 * 10 ^ (a.digits.length + b.scale) ≤ 10 ^ (b.digits.length + a.scale) := by
    rw [← pow_succ']
    exact Nat.pow_le_pow_right (by omega) hplaces
  omega

def centimals (a : Decimal) : List Nat :=
  cents (padded a.digits)

theorem length_centimals (a : Decimal) : a.centimals.length = (a.digits.length + 1) / 2 := by
  rw [centimals, length_cents, length_padded]
  omega

theorem centimals_lt (a : Decimal) : ∀ c ∈ a.centimals, c < 100 :=
  cents_lt (padded_lt a.digits_lt)

theorem aligned_centimals {L : Nat} (hL : a.digits.length ≤ 2 * L) :
    aligned 100 L a.centimals = a.mantissa * 10 ^ (2 * L - a.digits.length) := by
  rw [centimals, aligned_cents L (padded_even a.digits), aligned_padded, aligned_digits a hL]

theorem centimals_last (hb : b.Normal) (hscale : b.scale ≠ 0) : b.centimals.getLast? ≠ some 0 := by
  intro hlast
  obtain ⟨cs, hcs⟩ := List.getLast?_eq_some_iff.mp hlast
  have hlen : cs.length + 1 = (b.digits.length + 1) / 2 := by
    rw [← length_centimals, hcs, List.length_append, List.length_singleton]
  have hvalue := aligned_concat 100 cs 0
  rw [← hcs, aligned_centimals (by omega)] at hvalue
  have hnonzero := hb.resolve_left hscale
  have hpad : 2 * (cs.length + 1) - b.digits.length ≤ 1 := by omega
  interval_cases hp : 2 * (cs.length + 1) - b.digits.length <;> omega

/-- **Fractions compare digit by digit**, given one exponent. -/
theorem order_centimals (ha : a.Normal) (hb : b.Normal) (h : a.exponent = b.exponent) :
    order a.centimals b.centimals = order (a.mantissa * 10 ^ b.scale)
      (b.mantissa * 10 ^ a.scale) := by
  simp only [exponent] at h
  have hla := a.digits_length_le
  have hlb := b.digits_length_le
  have hsa := a.scale_le
  have hsb := b.scale_le
  -- 60 places hold both mantissas times the power of ten of the other
  have hwidth : ∀ d : Decimal, d.centimals.length ≤ 60 := by
    intro d
    have := d.digits_length_le
    rw [length_centimals]
    omega
  rw [order_aligned (L := 60) a.centimals_lt b.centimals_lt (hwidth a) (hwidth b),
    aligned_centimals (by omega), aligned_centimals (by omega)]
  · have hK : ∃ K, 2 * 60 - a.digits.length = b.scale + K
      ∧ 2 * 60 - b.digits.length = a.scale + K :=
      ⟨120 - a.digits.length - b.scale, by omega, by omega⟩
    obtain ⟨K, hKa, hKb⟩ := hK
    rw [hKa, hKb, pow_add, pow_add, ← mul_assoc, ← mul_assoc]
    exact order_map (f := (· * 10 ^ K))
      (fun _ _ hlt => Nat.mul_lt_mul_of_pos_right hlt (Nat.pow_pos (by omega))) _ _
  · intro hlt
    rw [length_centimals, length_centimals] at hlt
    exact centimals_last ha (by omega)
  · intro hlt
    rw [length_centimals, length_centimals] at hlt
    exact centimals_last hb (by omega)

/-- The payload's bytes as numbers: a head, and a terminated list of positive digits. -/
theorem payload_toNat (a : Decimal) :
    a.payload.map UInt8.toNat = flipSign 8 a.exponent :: (a.centimals.map (· + 1) ++ [0]) := by
  have hhead : (UInt8.ofNat (flipSign 8 a.exponent)).toNat = flipSign 8 a.exponent :=
    UInt8.toNat_ofNat_of_lt' (flipSign_lt 8 a.exponent)
  have hcents : (a.centimals.map fun cent => UInt8.ofNat (cent + 1)).map UInt8.toNat
      = a.centimals.map (· + 1) := by
    rw [List.map_map]
    apply List.map_congr_left
    intro c hc
    have hlt : c < 100 := a.centimals_lt c hc
    exact UInt8.toNat_ofNat_of_lt' (by simp only [UInt8.size]; omega)
  rw [payload, List.cons_append, List.map_cons, hhead, List.map_append]
  exact congrArg (flipSign 8 a.exponent :: · ++ [0]) hcents

theorem raised_pos (cs : List Nat) : ∀ c ∈ cs.map (· + 1), 0 < c := by
  intro c hc
  obtain ⟨d, -, rfl⟩ := List.mem_map.mp hc
  exact Nat.succ_pos d

/-- **Payloads of normalised positive numbers compare as the numbers do.** -/
theorem order_payload (ha : a.Normal) (hb : b.Normal) (hapos : a.mantissa ≠ 0)
    (hbpos : b.mantissa ≠ 0) :
    order a.payload b.payload = order (a.mantissa * 10 ^ b.scale) (b.mantissa * 10 ^ a.scale) := by
  have htoNat : StrictMono UInt8.toNat := fun _ _ hlt => UInt8.lt_iff_toNat_lt.mp hlt
  have hsucc : StrictMono (· + 1 : Nat → Nat) := fun _ _ hlt => Nat.succ_lt_succ hlt
  rw [← order_map_list htoNat, payload_toNat, payload_toNat, order_cons_cons,
    order_flipSign (exponent_bounds hapos) (exponent_bounds hbpos),
    order_concat (raised_pos _) (raised_pos _), order_map_list hsucc]
  rcases lt_trichotomy a.exponent b.exponent with h | h | h
  · rw [order_lt h, order_lt (exponent_decides hbpos h)]
    rfl
  · rw [h, order_self]
    exact order_centimals ha hb h
  · rw [order_gt h, order_gt (exponent_decides hapos h)]
    rfl

/-- No payload is cut off by another: each ends in the only zero after its head. -/
theorem apart_payload (a b : Decimal) : Apart a.payload b.payload := by
  have hinj : Function.Injective UInt8.toNat := fun _ _ h => UInt8.toNat_inj.mp h
  intro hpre
  have hpre' : a.payload.map UInt8.toNat <+: b.payload.map UInt8.toNat
      ∨ b.payload.map UInt8.toNat <+: a.payload.map UInt8.toNat :=
    hpre.imp (fun h => h.map _) fun h => h.map _
  rw [payload_toNat, payload_toNat, List.cons_prefix_cons, List.cons_prefix_cons] at hpre'
  refine List.map_injective_iff.mpr hinj ?_
  rw [payload_toNat, payload_toNat]
  have hhead : flipSign 8 a.exponent = flipSign 8 b.exponent := by
    rcases hpre' with h | h
    · exact h.1
    · exact h.1.symm
  rw [hhead, apart_concat (raised_pos _) (raised_pos _) (hpre'.imp And.right And.right)]

end Payloads

/-! ### Comparing keys -/

section Keys

theorem signed_normalize (d : Decimal) :
    d.signed = d.normalize.signed * 10 ^ (d.scale - d.normalize.scale) := by
  have hmul : (d.mantissa : Int) = d.normalize.mantissa * 10 ^ (d.scale - d.normalize.scale) := by
    exact_mod_cast (stripZeros_mul d.mantissa d.scale).symm
  rw [signed, signed, hmul]
  show (if d.negative then _ else _) = (if d.negative then _ else _) * _
  split
  · rw [Int.neg_mul]
  · rfl

theorem compare_normalize (a b : Decimal) : a.normalize.compare b.normalize = a.compare b := by
  have ha : a.normalize.scale ≤ a.scale := stripZeros_scale_le a.mantissa a.scale
  have hb : b.normalize.scale ≤ b.scale := stripZeros_scale_le b.mantissa b.scale
  obtain ⟨i, hi⟩ := Nat.le.dest ha
  obtain ⟨j, hj⟩ := Nat.le.dest hb
  have hpos : (0 : Int) < 10 ^ (i + j) := by positivity
  rw [compare, compare, signed_normalize a, signed_normalize b, ← hi, ← hj, Nat.add_sub_cancel_left,
    Nat.add_sub_cancel_left]
  rw [show a.normalize.signed * 10 ^ i * 10 ^ (b.normalize.scale + j)
      = a.normalize.signed * 10 ^ b.normalize.scale * 10 ^ (i + j) by ring,
    show b.normalize.signed * 10 ^ j * 10 ^ (a.normalize.scale + i)
      = b.normalize.signed * 10 ^ a.normalize.scale * 10 ^ (i + j) by ring]
  exact (order_map (f := (· * (10 : Int) ^ (i + j)))
    (fun _ _ hlt => Int.mul_lt_mul_of_pos_right hlt hpos) _ _).symm

theorem signedKey_cases (d : Decimal) :
    (d.signedKey = [DEC_ZERO] ∧ d.signed = 0) ∨
      (d.mantissa ≠ 0 ∧ d.signedKey = (DEC_NEG :: d.abs.payload.map fun b => ~~~b)
        ∧ d.signed = -d.mantissa) ∨
      (d.mantissa ≠ 0 ∧ d.signedKey = DEC_POS :: d.abs.payload ∧ d.signed = d.mantissa) := by
  by_cases hzero : d.mantissa = 0
  · left
    simp [signedKey, isZero, signed, hzero]
  · right
    cases hneg : d.negative
    · right
      simp [signedKey, isZero, signed, hzero, hneg]
    · left
      simp [signedKey, isZero, signed, hzero, hneg]

theorem order_abs_payload {a b : Decimal} (ha : a.Normal) (hb : b.Normal) (hapos : a.mantissa ≠ 0)
    (hbpos : b.mantissa ≠ 0) :
    order a.abs.payload b.abs.payload
      = order ((a.mantissa : Int) * 10 ^ b.scale) ((b.mantissa : Int) * 10 ^ a.scale) := by
  rw [order_payload (a := a.abs) (b := b.abs) ha hb hapos hbpos, ← order_map Int.natCast_strictMono]
  push_cast
  rfl

theorem order_signedKey {a b : Decimal} (ha : a.Normal) (hb : b.Normal) :
    order a.signedKey b.signedKey = a.compare b := by
  have hapow : (0 : Int) < 10 ^ a.scale := by positivity
  have hbpow : (0 : Int) < 10 ^ b.scale := by positivity
  have hbuckets : DEC_NEG < DEC_ZERO ∧ DEC_ZERO < DEC_POS ∧ DEC_NEG < DEC_POS := by decide
  have hpos : ∀ {d : Decimal} {k : Nat}, d.mantissa ≠ 0 → (0 : Int) < d.mantissa * 10 ^ k := by
    intro d k hd
    have : (0 : Int) < d.mantissa := by omega
    positivity
  obtain ⟨hnz, hzp, hnp⟩ := hbuckets
  rw [compare]
  rcases signedKey_cases a with ⟨hka, hsa⟩ | ⟨hma, hka, hsa⟩ | ⟨hma, hka, hsa⟩ <;>
    rcases signedKey_cases b with ⟨hkb, hsb⟩ | ⟨hmb, hkb, hsb⟩ | ⟨hmb, hkb, hsb⟩ <;>
    rw [hka, hkb, hsa, hsb, order_cons_cons]
  · -- the first number is zero
    simp
  · have hlt : -(b.mantissa : Int) * 10 ^ a.scale < 0 * 10 ^ b.scale := by
      rw [Int.neg_mul, Int.zero_mul]
      exact Int.neg_neg_of_pos (hpos hmb)
    rw [order_gt hnz, order_gt hlt]
    rfl
  · rw [order_lt hzp, Int.zero_mul, order_lt (hpos hmb)]
    rfl
  · -- it is negative
    have hlt : -(a.mantissa : Int) * 10 ^ b.scale < 0 * 10 ^ a.scale := by
      rw [Int.neg_mul, Int.zero_mul]
      exact Int.neg_neg_of_pos (hpos hma)
    rw [order_lt hnz, order_lt hlt]
    rfl
  · rw [order_self, (order_map_anti complement_strictAnti).mpr (apart_payload _ _),
      order_abs_payload hb ha hmb hma, Int.neg_mul, Int.neg_mul]
    exact (order_map_swap (fun _ _ hlt => Int.neg_lt_neg hlt) _ _).symm
  · have hlt : -(a.mantissa : Int) * 10 ^ b.scale < b.mantissa * 10 ^ a.scale := by
      have ha' := hpos (k := b.scale) hma
      have hb' := hpos (k := a.scale) hmb
      rw [Int.neg_mul]
      omega
    rw [order_lt hnp, order_lt hlt]
    rfl
  · -- it is positive
    rw [order_gt hzp, Int.zero_mul, order_gt (hpos hma)]
    rfl
  · have hlt : -(b.mantissa : Int) * 10 ^ a.scale < a.mantissa * 10 ^ b.scale := by
      have ha' := hpos (k := b.scale) hma
      have hb' := hpos (k := a.scale) hmb
      rw [Int.neg_mul]
      omega
    rw [order_gt hnp, order_gt hlt]
    rfl
  · rw [order_self]
    exact order_abs_payload ha hb hma hmb

theorem order_encodeKey (a b : Decimal) : order a.encodeKey b.encodeKey = a.compare b := by
  rw [encodeKey, encodeKey, order_signedKey (normal_normalize a) (normal_normalize b),
    compare_normalize]

theorem apart_encodeKey (a b : Decimal) : Apart a.encodeKey b.encodeKey := by
  have hbuckets : DEC_NEG ≠ DEC_ZERO ∧ DEC_ZERO ≠ DEC_POS ∧ DEC_NEG ≠ DEC_POS := by decide
  obtain ⟨hnz, hzp, hnp⟩ := hbuckets
  have hinj : Function.Injective fun b : UInt8 => ~~~b := complement_strictAnti.injective
  rw [encodeKey, encodeKey]
  rcases signedKey_cases a.normalize with ⟨hka, -⟩ | ⟨-, hka, -⟩ | ⟨-, hka, -⟩ <;>
    rcases signedKey_cases b.normalize with ⟨hkb, -⟩ | ⟨-, hkb, -⟩ | ⟨-, hkb, -⟩ <;>
    rw [hka, hkb] <;> refine .cons fun hbucket => ?_
  · exact apart_of_length rfl
  · exact absurd hbucket.symm hnz
  · exact absurd hbucket hzp
  · exact absurd hbucket hnz
  · exact (apart_payload _ _).map hinj
  · exact absurd hbucket hnp
  · exact absurd hbucket.symm hzp
  · exact absurd hbucket.symm hnp
  · exact apart_payload _ _

end Keys

end Decimal

end StrataDb.Sql
