import StrataDb.ByteCodec

/-!
# Comparing sequences, and encodings that keep the order

How a comparison passes through `::`, `++`, `List.map` and an order-reversing map (`Apart`); a
terminator below every element; left-aligned digits (`order_aligned`); and machine words:
`flipSign` for the signed order, `totalOrderBits` for the sign-magnitude one.
-/

namespace StrataDb.LexOrder

open ByteCodec
open List (cons_append length_cons map_cons mem_cons_of_mem mem_cons_self)

section Order

variable {α β : Type} [LinearOrder α] [LinearOrder β] {a b : α}

def order (a b : α) : Ordering :=
  cmp a b

theorem order_lt (h : a < b) : order a b = .lt :=
  (cmp_eq_lt_iff a b).mpr h

theorem order_gt (h : b < a) : order a b = .gt :=
  (cmp_eq_gt_iff a b).mpr h

@[simp] theorem order_self (a : α) : order a a = .eq :=
  cmp_self_eq_eq a

theorem order_eq_eq : order a b = .eq ↔ a = b :=
  cmp_eq_eq_iff a b

theorem order_swap (a b : α) : (order a b).swap = order b a :=
  cmp_swap a b

theorem order_map {f : α → β} (hf : StrictMono f) (a b : α) : order (f a) (f b) = order a b :=
  hf.cmp_map_eq a b

theorem order_map_swap {f : α → β} (hf : StrictAnti f) (a b : α) : order (f a) (f b) = order b a :=
  hf.cmp_map_eq a b

end Order

/-! ### Comparisons of lists -/

section Prefixes

variable {α : Type}

/-- Neither list is a proper prefix of the other. -/
def Apart (xs ys : List α) : Prop :=
  xs <+: ys ∨ ys <+: xs → xs = ys

theorem Apart.of_cons {x : α} {xs ys : List α} (h : Apart (x :: xs) (x :: ys)) : Apart xs ys := by
  intro hpre
  have hcons : x :: xs = x :: ys := by
    refine h ?_
    rwa [List.cons_prefix_cons, List.cons_prefix_cons, and_iff_right rfl, and_iff_right rfl]
  exact (List.cons.inj hcons).2

theorem Apart.cons {x y : α} {xs ys : List α} (h : x = y → Apart xs ys) :
    Apart (x :: xs) (y :: ys) := by
  intro hpre
  rw [List.cons_prefix_cons, List.cons_prefix_cons] at hpre
  rcases hpre with ⟨rfl, hpre⟩ | ⟨rfl, hpre⟩
  · rw [h rfl (Or.inl hpre)]
  · rw [h rfl (Or.inr hpre)]

theorem Apart.map {β : Type} {f : α → β} (hf : Function.Injective f) {xs ys : List α}
    (h : Apart xs ys) : Apart (xs.map f) (ys.map f) := by
  have hback : ∀ {us vs : List α}, us.map f <+: vs.map f → us <+: vs := by
    intro us vs hpre
    rw [List.prefix_iff_eq_take, List.length_map, ← List.map_take] at hpre
    rw [List.prefix_iff_eq_take]
    exact List.map_injective_iff.mpr hf hpre
  intro hpre
  rw [h (hpre.imp hback hback)]

theorem apart_of_length {xs ys : List α} (h : xs.length = ys.length) : Apart xs ys := by
  rintro (hpre | hpre)
  · exact hpre.eq_of_length h
  · exact (hpre.eq_of_length h.symm).symm

end Prefixes

section Lists

variable {α β : Type} [LinearOrder α] [LinearOrder β]

theorem order_cons_cons (x y : α) (xs ys : List α) :
    order (x :: xs) (y :: ys) = (order x y).then (order xs ys) := by
  rcases lt_trichotomy x y with h | rfl | h
  · rw [order_lt h, order_lt (List.cons_lt_cons_iff.mpr (Or.inl h))]
    rfl
  · rw [order_self]
    exact order_map (fun _ _ h => List.cons_lt_cons_iff.mpr (Or.inr ⟨rfl, h⟩)) xs ys
  · rw [order_gt h, order_gt (List.cons_lt_cons_iff.mpr (Or.inl h))]
    rfl

@[simp] theorem order_nil_cons (y : α) (ys : List α) : order [] (y :: ys) = .lt :=
  order_lt (List.nil_lt_cons y ys)

@[simp] theorem order_cons_nil (x : α) (xs : List α) : order (x :: xs) [] = .gt :=
  order_gt (List.nil_lt_cons x xs)

variable {xs ys : List α}

theorem order_append (h : xs.length = ys.length) (xs' ys' : List α) :
    order (xs ++ xs') (ys ++ ys') = (order xs ys).then (order xs' ys') := by
  induction xs generalizing ys with
  | nil =>
    obtain rfl : ys = [] := List.eq_nil_of_length_eq_zero h.symm
    rw [order_self]
    rfl
  | cons x xs ih =>
    cases ys with
    | nil => cases h
    | cons y ys =>
      rw [cons_append, cons_append, order_cons_cons, order_cons_cons, ih (Nat.succ.inj h),
        Ordering.then_assoc]

theorem order_map_list {f : α → β} (hf : StrictMono f) (xs ys : List α) :
    order (xs.map f) (ys.map f) = order xs ys := by
  induction xs generalizing ys with
  | nil => cases ys <;> simp
  | cons x xs ih =>
    cases ys with
    | nil => simp
    | cons y ys => rw [map_cons, map_cons, order_cons_cons, order_cons_cons, ih, order_map hf]

/-- **Reversing every element reverses the comparison**, unless one list is cut
    off by the other: the shorter one comes first either way. -/
theorem order_map_anti {f : α → β} (hf : StrictAnti f) :
    order (xs.map f) (ys.map f) = order ys xs ↔ Apart xs ys := by
  induction xs generalizing ys with
  | nil =>
    cases ys with
    | nil => simp [Apart]
    | cons y ys =>
      refine iff_of_false (by simp) fun h => ?_
      cases h (Or.inl List.nil_prefix)
  | cons x xs ih =>
    cases ys with
    | nil =>
      refine iff_of_false (by simp) fun h => ?_
      cases h (Or.inr List.nil_prefix)
    | cons y ys =>
      rw [map_cons, map_cons, order_cons_cons, order_cons_cons]
      rcases lt_trichotomy x y with hxy | rfl | hxy
      · rw [order_gt (hf hxy), order_gt hxy]
        exact iff_of_true rfl (.cons fun heq => absurd heq hxy.ne)
      · rw [order_self, order_self]
        exact ih.trans ⟨fun h => .cons fun _ => h, Apart.of_cons⟩
      · rw [order_lt (hf hxy), order_lt hxy]
        exact iff_of_true rfl (.cons fun heq => absurd heq hxy.ne')

theorem order_concat {t : α} (hx : ∀ x ∈ xs, t < x) (hy : ∀ y ∈ ys, t < y) :
    order (xs ++ [t]) (ys ++ [t]) = order xs ys := by
  induction xs generalizing ys with
  | nil =>
    cases ys with
    | nil => simp
    | cons y ys =>
      rw [List.nil_append, cons_append, order_cons_cons, order_lt (hy y mem_cons_self),
        order_nil_cons]
      rfl
  | cons x xs ih =>
    cases ys with
    | nil =>
      rw [List.nil_append, cons_append, order_cons_cons, order_gt (hx x mem_cons_self),
        order_cons_nil]
      rfl
    | cons y ys =>
      rw [cons_append, cons_append, order_cons_cons, order_cons_cons,
        ih (fun z hz => hx z (mem_cons_of_mem _ hz)) fun z hz => hy z (mem_cons_of_mem _ hz)]

theorem apart_concat {t : α} (hx : ∀ x ∈ xs, t < x) (hy : ∀ y ∈ ys, t < y) :
    Apart (xs ++ [t]) (ys ++ [t]) := by
  have key : ∀ {us vs : List α}, (∀ v ∈ vs, t < v) → us ++ [t] <+: vs ++ [t] → us ++ [t] = vs
    ++ [t] := by
    intro us vs hv hpre
    rcases List.prefix_concat_iff.mp hpre with heq | hpre
    · exact heq
    · have ht : t ∈ vs := hpre.subset (List.mem_append_right us mem_cons_self)
      exact absurd (hv t ht) (lt_irrefl t)
  rintro (hpre | hpre)
  · exact key hy hpre
  · exact (key hx hpre).symm

end Lists

/-! ### Digits -/

/-- The number `ds` denotes in base `b` when its digits, most significant first,
    take the leading ones of `L` places. -/
def aligned (b : Nat) : Nat → List Nat → Nat
  | L + 1, d :: ds => d * b ^ L + aligned b L ds
  | _, _ => 0

section Digits

variable {b : Nat} {ds : List Nat}

@[simp] theorem aligned_nil (b L : Nat) : aligned b L [] = 0 := by
  cases L <;> rfl

theorem aligned_lt (hds : ∀ d ∈ ds, d < b) (L : Nat) : aligned b L ds < b ^ L ∨ b = 0 := by
  induction ds generalizing L with
  | nil =>
    rcases Nat.eq_zero_or_pos b with hb | hb
    · exact Or.inr hb
    · exact Or.inl (by simpa using Nat.pow_pos hb)
  | cons d ds ih =>
    refine Or.inl ?_
    have hd : d < b := hds d mem_cons_self
    cases L with
    | zero => simp [aligned]
    | succ L =>
      rcases ih (fun e he => hds e (mem_cons_of_mem _ he)) L with htail | hb
      · have hmul : (d + 1) * b ^ L ≤ b * b ^ L := Nat.mul_le_mul_right _ hd
        rw [aligned, Nat.pow_succ']
        rw [Nat.add_mul] at hmul
        omega
      · omega

theorem aligned_pos (hb : 0 < b) {L : Nat} (hL : ds.length ≤ L) (hne : ds ≠ [])
    (hlast : ds.getLast hne ≠ 0) : 0 < aligned b L ds := by
  induction ds generalizing L with
  | nil => exact absurd rfl hne
  | cons d ds ih =>
    cases L with
    | zero => cases hL
    | succ L =>
      cases ds with
      | nil =>
        have hd : 0 < d := Nat.pos_of_ne_zero hlast
        rw [aligned, aligned_nil]
        exact Nat.mul_pos hd (Nat.pow_pos hb)
      | cons e es =>
        have := ih (Nat.le_of_succ_le_succ hL) (List.cons_ne_nil e es) hlast
        rw [aligned]
        omega

theorem aligned_concat_zero (b L : Nat) (ds : List Nat) :
    aligned b L (ds ++ [0]) = aligned b L ds := by
  induction ds generalizing L with
  | nil => cases L <;> simp [aligned]
  | cons d ds ih =>
    cases L with
    | zero => rfl
    | succ L => rw [cons_append, aligned, aligned, ih]

theorem aligned_add (b : Nat) (ds : List Nat) (k : Nat) :
    aligned b (ds.length + k) ds = aligned b ds.length ds * b ^ k := by
  induction ds with
  | nil => simp
  | cons d ds ih =>
    rw [length_cons, Nat.add_right_comm, aligned, aligned, ih, Nat.add_mul, pow_add, mul_assoc]

theorem aligned_concat (b : Nat) (ds : List Nat) (d : Nat) :
    aligned b (ds.length + 1) (ds ++ [d]) = aligned b ds.length ds * b + d := by
  induction ds with
  | nil => simp [aligned]
  | cons e ds ih =>
    rw [length_cons, cons_append, aligned, aligned, ih, Nat.add_mul, pow_succ, mul_assoc, add_assoc]

theorem aligned_reverse (b : Nat) (ds : List Nat) :
    aligned b ds.length ds.reverse = Nat.ofDigits b ds := by
  induction ds with
  | nil => simp
  | cons d ds ih =>
    rw [List.reverse_cons, length_cons, ← List.length_reverse, aligned_concat, List.length_reverse,
      ih, Nat.ofDigits_cons]
    ring_nf

/-- **Digits compare as the numbers they denote**: of two lists left-aligned in
    as many places, where the longer one does not end in a zero. -/
theorem order_aligned {L : Nat} {xs ys : List Nat} (hx : ∀ x ∈ xs, x < b) (hy : ∀ y ∈ ys, y < b)
    (hxL : xs.length ≤ L) (hyL : ys.length ≤ L)
    (hxlast : ys.length < xs.length → xs.getLast? ≠ some 0)
    (hylast : xs.length < ys.length → ys.getLast? ≠ some 0) :
    order xs ys = order (aligned b L xs) (aligned b L ys) := by
  -- a list that does not end in zero denotes a positive number
  have hpos : ∀ {z : Nat} {zs : List Nat} {L : Nat}, (∀ w ∈ z :: zs, w < b) →
      (z :: zs).length ≤ L → (z :: zs).getLast? ≠ some 0 → 0 < aligned b L (z :: zs) := by
    intro z zs L hlt hL hlast
    have hb : 0 < b := Nat.lt_of_le_of_lt (Nat.zero_le z) (hlt z mem_cons_self)
    refine aligned_pos hb hL (List.cons_ne_nil z zs) ?_
    rwa [List.getLast?_eq_some_getLast (List.cons_ne_nil z zs), ne_eq, Option.some_inj] at hlast
  induction xs generalizing ys L with
  | nil =>
    cases ys with
    | nil => simp
    | cons y ys =>
      rw [order_nil_cons, aligned_nil, order_lt (hpos hy hyL (hylast (Nat.succ_pos _)))]
  | cons x xs ih =>
    cases ys with
    | nil => rw [order_cons_nil, aligned_nil, order_gt (hpos hx hxL (hxlast (Nat.succ_pos _)))]
    | cons y ys =>
      cases L with
      | zero => cases hxL
      | succ L =>
        have hx' : ∀ z ∈ xs, z < b := fun z hz => hx z (mem_cons_of_mem _ hz)
        have hy' : ∀ z ∈ ys, z < b := fun z hz => hy z (mem_cons_of_mem _ hz)
        have hb : 0 < b := Nat.lt_of_le_of_lt (Nat.zero_le x) (hx x mem_cons_self)
        have hlast : ∀ {u w : Nat} {us ws : List Nat},
            ((u :: us).length < (w :: ws).length → (w :: ws).getLast? ≠ some 0) →
            us.length < ws.length → ws.getLast? ≠ some 0 := by
          intro u w us ws h hlt
          have hne : ws ≠ [] := List.ne_nil_of_length_pos (Nat.lt_of_le_of_lt (Nat.zero_le _) hlt)
          have := h (Nat.succ_lt_succ hlt)
          rwa [List.getLast?_cons_of_ne_nil hne] at this
        have htail := ih hx' hy' (Nat.le_of_succ_le_succ hxL) (Nat.le_of_succ_le_succ hyL)
          (hlast hxlast) (hlast hylast)
        have hxlt := (aligned_lt hx' L).resolve_right hb.ne'
        have hylt := (aligned_lt hy' L).resolve_right hb.ne'
        rw [order_cons_cons, htail, aligned, aligned]
        rcases lt_trichotomy x y with hxy | rfl | hxy
        · have hmul : (x + 1) * b ^ L ≤ y * b ^ L := Nat.mul_le_mul_right _ hxy
          rw [Nat.add_mul] at hmul
          have hlt : x * b ^ L + aligned b L xs < y * b ^ L + aligned b L ys := by omega
          rw [order_lt hxy, order_lt hlt]
          rfl
        · rw [order_self]
          exact (order_map (fun _ _ h => Nat.add_lt_add_left h _) _ _).symm
        · have hmul : (y + 1) * b ^ L ≤ x * b ^ L := Nat.mul_le_mul_right _ hxy
          rw [Nat.add_mul] at hmul
          have hlt : y * b ^ L + aligned b L ys < x * b ^ L + aligned b L xs := by omega
          rw [order_gt hxy, order_gt hlt]
          rfl

end Digits

/-! ### Machine words -/

theorem aligned_bytes (bs : Bytes) : aligned 256 bs.length (bs.map UInt8.toNat) = beNat bs := by
  induction bs with
  | nil => rfl
  | cons b bs ih => rw [map_cons, length_cons, aligned, beNat, ih]

theorem order_bytes {xs ys : Bytes} (h : xs.length = ys.length) :
    order xs ys = order (beNat xs) (beNat ys) := by
  have hmono : StrictMono UInt8.toNat := fun _ _ hlt => UInt8.lt_iff_toNat_lt.mp hlt
  have hdigit : ∀ (bs : Bytes), ∀ d ∈ bs.map UInt8.toNat, d < 256 := by
    intro bs d hd
    obtain ⟨b, -, rfl⟩ := List.mem_map.mp hd
    exact b.toNat_lt
  rw [← order_map_list hmono, order_aligned (L := xs.length) (hdigit xs) (hdigit ys) (by simp)
    (by simp [h]) (by simp [h]) (by simp [h]), aligned_bytes, h, aligned_bytes]

theorem order_beBytes {w m n : Nat} (hm : m < 256 ^ w) (hn : n < 256 ^ w) :
    order (beBytes w m) (beBytes w n) = order m n := by
  rw [order_bytes (by simp), beNat_beBytes_of_lt hm, beNat_beBytes_of_lt hn]

theorem complement_strictAnti : StrictAnti fun b : UInt8 => ~~~b := by
  intro a b hlt
  have ha := a.toNat_lt
  have hb := b.toNat_lt
  rw [UInt8.lt_iff_toNat_lt] at hlt ⊢
  rw [UInt8.toNat_not, UInt8.toNat_not]
  simp only [UInt8.size]
  omega

variable {k : Nat}

theorem xor_two_pow {x : Nat} (h : x < 2 ^ k) : x ^^^ 2 ^ k = x + 2 ^ k := by
  apply Nat.eq_of_testBit_eq
  intro i
  rw [Nat.testBit_xor, Nat.testBit_two_pow, Nat.add_comm]
  rcases Nat.lt_trichotomy i k with hik | rfl | hik
  · rw [Nat.testBit_two_pow_add_gt hik, decide_eq_false (by omega), Bool.xor_false]
  · rw [Nat.testBit_two_pow_add_eq, Nat.testBit_lt_two_pow h, decide_eq_true rfl]
    rfl
  · have hlt : 2 ^ k + x < 2 ^ i :=
      calc 2 ^ k + x < 2 ^ k + 2 ^ k := Nat.add_lt_add_left h _
        _ = 2 ^ (k + 1) := by rw [pow_succ]; omega
        _ ≤ 2 ^ i := Nat.pow_le_pow_right (by omega) hik
    have hlt' : x < 2 ^ i := by omega
    rw [Nat.testBit_lt_two_pow hlt, Nat.testBit_lt_two_pow hlt', decide_eq_false (by omega)]
    rfl

theorem toNat_xor_top (x : BitVec (k + 1)) :
    (x ^^^ (1#(k + 1) <<< k)).toNat = if x.toNat < 2 ^ k then x.toNat + 2 ^ k else
    x.toNat - 2 ^ k := by
  have hx : x.toNat < 2 ^ (k + 1) := x.isLt
  have htop : (1#(k + 1) <<< k).toNat = 2 ^ k := by
    rw [BitVec.toNat_shiftLeft, BitVec.toNat_one (by omega), Nat.shiftLeft_eq, Nat.one_mul,
      Nat.mod_eq_of_lt (Nat.pow_lt_pow_right (by omega) (Nat.lt_succ_self k))]
  rw [BitVec.toNat_xor, htop]
  split
  · exact xor_two_pow ‹_›
  · rw [pow_succ] at hx
    have hlow : x.toNat - 2 ^ k < 2 ^ k := by omega
    have hsplit : x.toNat = (x.toNat - 2 ^ k) ^^^ 2 ^ k := by
      rw [xor_two_pow hlow]
      omega
    conv_lhs => rw [hsplit]
    rw [Nat.xor_assoc, Nat.xor_self, Nat.xor_zero]

/-- A signed number cast to an unsigned word of `w` bits, with the sign bit
    flipped: negative numbers then come below the others. -/
def flipSign (w : Nat) (n : Int) : Nat :=
  (BitVec.ofInt w n ^^^ (1#w <<< (w - 1))).toNat

theorem flipSign_eq {n : Int} (hlo : -2 ^ k ≤ n) (hhi : n < 2 ^ k) :
    (flipSign (k + 1) n : Int) = n + 2 ^ k := by
  have hpow : (2 : Int) ^ (k + 1) = 2 ^ k + 2 ^ k := by rw [pow_succ]; omega
  have hcast : ((2 ^ k : Nat) : Int) = 2 ^ k := by simp
  have hword : ((BitVec.ofInt (k + 1) n).toNat : Int) = n % 2 ^ (k + 1) := by
    rw [BitVec.toNat_ofInt, Int.toNat_of_nonneg (Int.emod_nonneg _ (by positivity))]
    simp
  rw [flipSign, Nat.add_sub_cancel, toNat_xor_top]
  rcases Int.lt_or_le n 0 with hneg | hpos
  · have hmod : n % 2 ^ (k + 1) = n + 2 ^ (k + 1) := by
      rw [← Int.add_emod_right, Int.emod_eq_of_lt (by omega) (by omega)]
    rw [if_neg (by omega), Nat.cast_sub (by omega)]
    omega
  · have hmod : n % 2 ^ (k + 1) = n := Int.emod_eq_of_lt hpos (by omega)
    rw [if_pos (by omega)]
    omega

theorem order_flipSign {m n : Int} (hm : -2 ^ k ≤ m ∧ m < 2 ^ k) (hn : -2 ^ k ≤ n ∧ n < 2 ^ k) :
    order (flipSign (k + 1) m) (flipSign (k + 1) n) = order m n := by
  rw [← order_map Int.natCast_strictMono, flipSign_eq hm.1 hm.2, flipSign_eq hn.1 hn.2]
  exact order_map (fun _ _ h => Int.add_lt_add_right h _) m n

theorem flipSign_lt (w : Nat) (n : Int) : flipSign w n < 2 ^ w :=
  BitVec.isLt _

/-- A sign-magnitude word made to compare as an unsigned one: with the sign bit
    set every bit is flipped, otherwise only that one. -/
def totalOrderBits (w : Nat) (bits : BitVec w) : BitVec w :=
  bits ^^^ (-(bits >>> (w - 1)) ||| (1#w <<< (w - 1)))

/-- Where a sign-magnitude word stands in the total order of its numbers: a
    larger magnitude is lower below zero, and the two zeros differ. -/
def totalOrder {k : Nat} (bits : BitVec (k + 1)) : Int :=
  if bits.toNat < 2 ^ k then bits.toNat else 2 ^ k - 1 - bits.toNat

theorem totalOrderBits_eq (bits : BitVec (k + 1)) :
    ((totalOrderBits (k + 1) bits).toNat : Int) = totalOrder bits + 2 ^ k := by
  have hlt : bits.toNat < 2 ^ (k + 1) := bits.isLt
  have hpow : 2 ^ (k + 1) = 2 ^ k + 2 ^ k := by rw [pow_succ]; omega
  have hcast : ((2 ^ k : Nat) : Int) = 2 ^ k := by simp
  rw [totalOrderBits, Nat.add_sub_cancel, totalOrder]
  split
  · -- the sign bit is clear: the mask is the top bit alone
    have hsign : bits >>> k = 0#(k + 1) := by
      refine BitVec.eq_of_toNat_eq ?_
      rw [BitVec.toNat_ushiftRight, Nat.shiftRight_eq_div_pow, Nat.div_eq_of_lt ‹_›]
      simp
    rw [hsign, BitVec.neg_zero, BitVec.zero_or, toNat_xor_top, if_pos ‹_›]
    omega
  · -- the sign bit is set: the mask is all ones
    have hsign : bits >>> k = 1#(k + 1) := by
      refine BitVec.eq_of_toNat_eq ?_
      rw [BitVec.toNat_ushiftRight, Nat.shiftRight_eq_div_pow, BitVec.toNat_one (by omega)]
      exact Nat.div_eq_of_lt_le (by omega) (by omega)
    rw [hsign, BitVec.neg_one_eq_allOnes, BitVec.allOnes_or, BitVec.xor_allOnes, BitVec.toNat_not]
    omega

theorem totalOrder_inj {a b : BitVec (k + 1)} : totalOrder a = totalOrder b ↔ a = b := by
  refine ⟨fun h => BitVec.eq_of_toNat_eq ?_, fun h => by rw [h]⟩
  have hcast : ((2 ^ k : Nat) : Int) = 2 ^ k := by simp
  unfold totalOrder at h
  split_ifs at h <;> omega

theorem order_totalOrderBits (a b : BitVec (k + 1)) :
    order (totalOrderBits (k + 1) a).toNat (totalOrderBits (k + 1) b).toNat
      = order (totalOrder a) (totalOrder b) := by
  rw [← order_map Int.natCast_strictMono, totalOrderBits_eq, totalOrderBits_eq]
  exact order_map (fun _ _ h => Int.add_lt_add_right h _) (totalOrder a) (totalOrder b)

end StrataDb.LexOrder
