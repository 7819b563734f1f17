import StrataDb.CompareLaws
import StrataDb.Numbers

/-!
# Is `cmp_values` a total preorder? (`query/expression/mod.rs`)

It is transitive within each domain, but the domain is chosen pair by pair: where two exact
numbers round to one double, that double is equal to both and they differ. Three such values are
`Torn`, and on values that are not arrays nothing else breaks transitivity; in arrays the first
place at which the three items are not all equal decides.
-/

namespace StrataDb.Sql

open ByteCodec LexOrder FloatGrid

variable {rt : Runtime} {a b c : Value} {p q r : Ordering}

/-! ### Turning the sides round -/

theorem cmpValues_plain {k : Nat} {r s : List Int} (ha : plainRank a = some (k, r))
    (hb : plainRank b = some (k, s)) : cmpValues rt a b = .ok (order r s) := by
  cases a <;> cases ha <;> cases b <;> cases hb <;>
    simp only [cmpValues, asI64, asDecimal, asF64, order_singleton, order_byteInts, order_boolInt]

mutual

theorem cmpValues_swap {a b : Value} {o : Ordering} (hcmp : cmpValues rt a b = .ok o) :
    cmpValues rt b a = .ok o.swap := by
  cases compared_of_cmpValues hcmp with
  | @exact _ _ x y ha hb =>
    rw [cmpValues_asDecimal rt hb ha, Decimal.compare, Decimal.compare, order_swap]
  | double hfloat ha hb =>
    rw [(cmpValues_asF64 hb ha hfloat.symm).1, totalCmp, totalCmp, order_swap]
  | plain ha hb => rw [cmpValues_plain hb ha, order_swap]
  | @array xs ys _ hitems =>
    simp only [cmpValues, asI64, asDecimal, asF64]
    exact cmpItems_swap hitems
termination_by sizeOf a

theorem cmpItems_swap {xs ys : List Value} {o : Ordering} (hcmp : cmpItems rt xs ys = .ok o) :
    cmpItems rt ys xs = .ok o.swap := by
  match xs, ys with
  | [], [] =>
    obtain rfl := Except.ok.inj hcmp
    rfl
  | [], y :: ys =>
    obtain rfl := Except.ok.inj hcmp
    rw [order_swap]
    rfl
  | x :: xs, [] =>
    obtain rfl := Except.ok.inj hcmp
    rw [order_swap]
    rfl
  | x :: xs, y :: ys =>
    obtain ⟨p, hhead, ⟨rfl, htail⟩ | ⟨hne, rfl⟩⟩ := cmpItems_cons hcmp
    · rw [cmpItems, cmpValues_swap hhead]
      exact cmpItems_swap htail
    · rw [cmpItems, cmpValues_swap hhead]
      cases o <;> first | rfl | exact absurd rfl hne
termination_by sizeOf xs

end

/-! ### Numbers -/

/-- Decimals become doubles by rounding to nearest, ties to even, as integers do. -/
def RoundsToNearest (rt : Runtime) : Prop :=
  ∀ d, ∃ f, rt.decimalToF64 d = some f ∧ NearestF64 d.number f

def doublePlace (f : UInt64) : Int :=
  totalOrder f.toBitVec

theorem doublePlace_inj {f g : UInt64} : doublePlace f = doublePlace g ↔ f = g := by
  rw [doublePlace, doublePlace, totalOrder_inj, UInt64.toBitVec_inj]

theorem RoundsToNearest.asF64 (law : RoundsToNearest rt) {x : Decimal} (ha : asDecimal a = some x) :
    ∃ f, asF64 rt a = some f ∧ NearestF64 x.number f := by
  cases a <;> cases ha
  case numeric => exact law x
  all_goals exact ⟨_, rfl, by rw [Decimal.number_ofInt64]; exact nearestF64_f64OfI64 _⟩

/-- `a ≤ b` and `b ≤ c` give `a ≤ c`, and equality is transitive, of the three results. -/
def Chains (p q r : Ordering) : Prop :=
  (p ≠ .gt → q ≠ .gt → r ≠ .gt) ∧ (p = .eq → q = .eq → r = .eq)

structure Rounded (x y : ℚ) (s t : Int) : Prop where
  lt : x < y → s ≤ t
  gt : y < x → t ≤ s
  zero : x = y → s ≠ t → s = -1 ∧ t = 0 ∨ s = 0 ∧ t = -1

theorem rounded_of_nearest {x y : ℚ} {f g : UInt64} (hf : NearestF64 x f) (hg : NearestF64 y g) :
    Rounded x y (doublePlace f) (doublePlace g) := by
  have hscale : (0 : ℚ) < 2 ^ 1074 := by positivity
  refine ⟨fun h => hf.mono hg ?_, fun h => hg.mono hf ?_, ?_⟩
  · exact mul_lt_mul_of_pos_right h hscale
  · exact mul_lt_mul_of_pos_right h hscale
  · rintro rfl hne
    have hzero : x * 2 ^ 1074 = 0 := by
      by_contra hx
      exact hne (hf.unique hg hx)
    unfold NearestF64 at hf hg
    rw [hzero] at hf hg
    have hf := hf.zero (by norm_num)
    have hg := hg.zero (by norm_num)
    unfold doublePlace at hne ⊢
    omega

theorem order_ne_gt {α : Type} [LinearOrder α] {x y : α} : order x y ≠ .gt ↔ x ≤ y := by
  rcases lt_trichotomy x y with h | rfl | h
  · simp [order_lt h, h.le]
  · simp
  · simp [order_gt h, h]

section
variable {x y : ℚ} {s t u : Int}

theorem chains_middle (h : Rounded x y s t) :
    Chains (order s u) (order u t) (order x y) ↔ ¬ (s = u ∧ u = t ∧ x ≠ y) := by
  obtain ⟨hlt, hgt, hzero⟩ := h
  simp only [Chains, order_ne_gt, order_eq_eq]
  rcases lt_trichotomy x y with hxy | hxy | hxy <;> grind

theorem chains_first (h : Rounded x y s t) :
    Chains (order u s) (order x y) (order u t) ↔ ¬ (u = s ∧ x = y ∧ u ≠ t) := by
  obtain ⟨hlt, hgt, hzero⟩ := h
  simp only [Chains, order_ne_gt, order_eq_eq]
  rcases lt_trichotomy x y with hxy | hxy | hxy <;> grind

theorem chains_last (h : Rounded x y s t) :
    Chains (order x y) (order t u) (order s u) ↔ ¬ (t = u ∧ x = y ∧ s ≠ u) := by
  obtain ⟨hlt, hgt, hzero⟩ := h
  simp only [Chains, order_ne_gt, order_eq_eq]
  rcases lt_trichotomy x y with hxy | hxy | hxy <;> grind

end

theorem chains_order {α : Type} [LinearOrder α] (x y z : α) :
    Chains (order x y) (order y z) (order x z) := by
  simp only [Chains, order_ne_gt, order_eq_eq]
  exact ⟨le_trans, Eq.trans⟩

/-- `b` is equal to `a` and to `c`, which differ: two exact numbers that round to one
    double, around that double; or a float, a zero that has it as its double, and a zero
    that has not. -/
def Torn (rt : Runtime) (a b c : Value) : Prop :=
  match asDecimal a, asDecimal b, asDecimal c with
  | some x, none, some z =>
    asF64 rt a = asF64 rt b ∧ asF64 rt b = asF64 rt c ∧ x.number ≠ z.number
  | none, some y, some z =>
    asF64 rt a = asF64 rt b ∧ y.number = z.number ∧ asF64 rt a ≠ asF64 rt c
  | some x, some y, none =>
    asF64 rt b = asF64 rt c ∧ x.number = y.number ∧ asF64 rt a ≠ asF64 rt c
  | _, _, _ => False

theorem cmpValues_numbers {f g : UInt64} (hf : asF64 rt a = some f) (hg : asF64 rt b = some g)
    (hcmp : cmpValues rt a b = .ok p) :
    p = match asDecimal a, asDecimal b with
      | some x, some y => order x.number y.number
      | _, _ => order (doublePlace f) (doublePlace g) := by
  split
  · rename_i x y ha hb
    rw [cmpValues_asDecimal rt ha hb, Decimal.compare_eq] at hcmp
    exact (Except.ok.inj hcmp).symm
  · rename_i hne
    have hfloat : asDecimal a = none ∨ asDecimal b = none := by
      cases ha : asDecimal a with
      | none => exact Or.inl rfl
      | some x =>
        cases hb : asDecimal b with
        | none => exact Or.inr rfl
        | some y => exact absurd hb (hne x y ha)
    rw [(cmpValues_asF64 hf hg hfloat).1] at hcmp
    exact (Except.ok.inj hcmp).symm

/-- **On numbers, exactly the torn triples break the order.** -/
theorem chains_iff_not_torn (law : RoundsToNearest rt) {f g h : UInt64} (hf : asF64 rt a = some f)
    (hg : asF64 rt b = some g) (hh : asF64 rt c = some h) (hab : cmpValues rt a b = .ok p)
    (hbc : cmpValues rt b c = .ok q) (hac : cmpValues rt a c = .ok r) :
    Chains p q r ↔ ¬ Torn rt a b c := by
  have hnear {v : Value} {x : Decimal} {f : UInt64} (hv : asDecimal v = some x)
      (hf : asF64 rt v = some f) : NearestF64 x.number f := by
    obtain ⟨g, hg, hn⟩ := law.asF64 hv
    obtain rfl := Option.some.inj (hf.symm.trans hg)
    exact hn
  rw [cmpValues_numbers hf hg hab, cmpValues_numbers hg hh hbc, cmpValues_numbers hf hh hac, Torn,
    hf, hg, hh]
  simp only [ne_eq, Option.some.injEq, ← doublePlace_inj]
  cases ha : asDecimal a with
  | none =>
    cases hb : asDecimal b with
    | none => exact iff_of_true (chains_order _ _ _) id
    | some y =>
      cases hc : asDecimal c with
      | none => exact iff_of_true (chains_order _ _ _) id
      | some z => exact chains_first (rounded_of_nearest (hnear hb hg) (hnear hc hh))
  | some x =>
    cases hb : asDecimal b with
    | none =>
      cases hc : asDecimal c with
      | none => exact iff_of_true (chains_order _ _ _) id
      | some z => exact chains_middle (rounded_of_nearest (hnear ha hf) (hnear hc hh))
    | some y =>
      cases hc : asDecimal c with
      | none => exact chains_last (rounded_of_nearest (hnear ha hf) (hnear hb hg))
      | some z => exact iff_of_true (chains_order _ _ _) id

/-! ### All values -/

/-- The three results are those of a preorder: unless `b` is the least or the greatest,
    the first of them that is not `Equal` is the third. -/
def Coherent (p q r : Ordering) : Prop :=
  (p ≠ .gt ∧ q ≠ .gt) ∨ (p ≠ .lt ∧ q ≠ .lt) → r = p.then q

theorem Coherent.chains (h : Coherent p q r) : Chains p q r := by
  revert h
  cases p <;> cases q <;> cases r <;> simp [Coherent, Chains]

theorem coherent_of_chains (habc : Chains p q r) (hbac : Chains p.swap r q)
    (hacb : Chains r q.swap p) (hbca : Chains q r.swap p.swap) : Coherent p q r := by
  revert habc hbac hacb hbca
  cases p <;> cases q <;> cases r <;> simp [Coherent, Chains]

theorem coherent_order {α : Type} [LinearOrder α] (x y z : α) :
    Coherent (order x y) (order y z) (order x z) := by
  refine coherent_of_chains (chains_order x y z) ?_ ?_ ?_
  · rw [order_swap]
    exact chains_order y x z
  · rw [order_swap]
    exact chains_order x z y
  · rw [order_swap, order_swap]
    exact chains_order y z x

theorem coherent_then {p q r p' q' r' : Ordering} (hhead : Coherent p q r)
    (htail : p = .eq → q = .eq → r = .eq → Coherent p' q' r') :
    Coherent (p.then p') (q.then q') (r.then r') := by
  revert hhead htail
  cases p <;> cases q <;> cases r <;> simp [Coherent] <;> cases p' <;> simp

/-- At the first place at which the items of three arrays are not all equal, they are
    torn, in some order. -/
inductive TornItems (rt : Runtime) : List Value → List Value → List Value → Prop
  | numbers {x y z : Value} {xs ys zs : List Value}
      (h : Torn rt x y z ∨ Torn rt y x z ∨ Torn rt x z y) :
      TornItems rt (x :: xs) (y :: ys) (z :: zs)
  | arrays {us vs ws xs ys zs : List Value} (h : TornItems rt us vs ws) :
      TornItems rt (.array us :: xs) (.array vs :: ys) (.array ws :: zs)
  | tail {x y z : Value} {xs ys zs : List Value} (hxy : valuesEq rt x y = true)
      (hyz : valuesEq rt y z = true) (hxz : valuesEq rt x z = true) (h : TornItems rt xs ys zs) :
      TornItems rt (x :: xs) (y :: ys) (z :: zs)

theorem Torn.symm (h : Torn rt a b c) : Torn rt c b a := by
  revert h
  rw [Torn, Torn]
  cases asDecimal a <;> cases asDecimal b <;> cases asDecimal c <;> try exact id
  · rintro ⟨hab, heq, hne⟩
    exact ⟨hab.symm, heq.symm, hne.symm⟩
  · rintro ⟨hab, hbc, hne⟩
    exact ⟨hbc.symm, hab.symm, hne.symm⟩
  · rintro ⟨hbc, heq, hne⟩
    exact ⟨hbc.symm, heq.symm, hne.symm⟩

theorem coherent_numbers (law : RoundsToNearest rt) {f g h : UInt64} (hf : asF64 rt a = some f)
    (hg : asF64 rt b = some g) (hh : asF64 rt c = some h) (hab : cmpValues rt a b = .ok p)
    (hbc : cmpValues rt b c = .ok q) (hac : cmpValues rt a c = .ok r)
    (hwhole : ¬ (Torn rt a b c ∨ Torn rt b a c ∨ Torn rt a c b)) : Coherent p q r := by
  simp only [not_or] at hwhole
  obtain ⟨hb, ha, hc⟩ := hwhole
  have hba := cmpValues_swap hab
  have hcb := cmpValues_swap hbc
  have hca := cmpValues_swap hac
  exact coherent_of_chains ((chains_iff_not_torn law hf hg hh hab hbc hac).mpr hb)
    ((chains_iff_not_torn law hg hf hh hba hac hbc).mpr ha)
    ((chains_iff_not_torn law hf hh hg hac hcb hab).mpr hc)
    ((chains_iff_not_torn law hg hh hf hbc hca hba).mpr fun h => hc h.symm)

/-! ### Domains do not mix -/

theorem plainRank_number {f : UInt64} (hf : asF64 rt a = some f) : plainRank a = none := by
  cases a <;> first | rfl | cases hf

theorem number_of_compared (law : RoundsToNearest rt) {f : UInt64} (hf : asF64 rt a = some f)
    (hcmp : cmpValues rt a b = .ok p) : ∃ g, asF64 rt b = some g := by
  cases compared_of_cmpValues hcmp with
  | exact ha hb =>
    obtain ⟨g, hg, -⟩ := law.asF64 hb
    exact ⟨g, hg⟩
  | double _ _ hb => exact ⟨_, hb⟩
  | plain ha _ => cases (plainRank_number hf).symm.trans ha
  | array _ => cases hf

theorem plain_of_compared {k : Nat} {s : List Int} (hs : plainRank a = some (k, s))
    (hcmp : cmpValues rt a b = .ok p) : ∃ t, plainRank b = some (k, t) ∧ p = order s t := by
  cases compared_of_cmpValues hcmp with
  | exact ha _ =>
    have hnone : plainRank a = none := by
      cases a <;> first | rfl | cases ha
    cases hnone.symm.trans hs
  | double _ ha _ => cases (plainRank_number ha).symm.trans hs
  | plain ha hb =>
    obtain ⟨rfl, rfl⟩ := Prod.mk.inj (Option.some.inj (ha.symm.trans hs))
    exact ⟨_, hb, rfl⟩
  | array _ => cases hs

theorem array_of_compared {xs : List Value} (hcmp : cmpValues rt (.array xs) b = .ok p) :
    ∃ ys, b = .array ys ∧ cmpItems rt xs ys = .ok p := by
  cases compared_of_cmpValues hcmp with
  | exact ha _ => cases ha
  | double _ ha _ => cases ha
  | plain ha _ => cases ha
  | array hitems => exact ⟨_, rfl, hitems⟩

/-- Three values that compare with one another are three numbers, three values of one
    other type, or three arrays. -/
theorem compared_triple (law : RoundsToNearest rt) (hab : cmpValues rt a b = .ok p)
    (hbc : cmpValues rt b c = .ok q) (hac : cmpValues rt a c = .ok r) :
    (∃ f g h, asF64 rt a = some f ∧ asF64 rt b = some g ∧ asF64 rt c = some h)
      ∨ (∃ s t u : List Int, p = order s t ∧ q = order t u ∧ r = order s u
          ∧ asDecimal a = none ∧ asDecimal b = none)
      ∨ ∃ xs ys zs, a = .array xs ∧ b = .array ys ∧ c = .array zs ∧ cmpItems rt xs ys = .ok p
          ∧ cmpItems rt ys zs = .ok q ∧ cmpItems rt xs zs = .ok r := by
  have hnumber {f : UInt64} (hf : asF64 rt a = some f) :
      ∃ f g h, asF64 rt a = some f ∧ asF64 rt b = some g ∧ asF64 rt c = some h := by
    obtain ⟨g, hg⟩ := number_of_compared law hf hab
    obtain ⟨h, hh⟩ := number_of_compared law hf hac
    exact ⟨f, g, h, hf, hg, hh⟩
  have hinexact {v : Value} {w : Nat × List Int} (hv : plainRank v = some w) :
      asDecimal v = none := by
    cases v <;> first | rfl | cases hv
  cases compared_of_cmpValues hab with
  | exact ha _ =>
    obtain ⟨f, hf, -⟩ := law.asF64 ha
    exact Or.inl (hnumber hf)
  | double _ hf _ => exact Or.inl (hnumber hf)
  | plain ha hb =>
    obtain ⟨t, hc, rfl⟩ := plain_of_compared ha hac
    obtain ⟨t', hc', rfl⟩ := plain_of_compared hb hbc
    obtain ⟨-, rfl⟩ := Prod.mk.inj (Option.some.inj (hc.symm.trans hc'))
    exact Or.inr (Or.inl ⟨_, _, _, rfl, rfl, rfl, hinexact ha, hinexact hb⟩)
  | array hxy =>
    obtain ⟨zs, rfl, hxz⟩ := array_of_compared hac
    obtain ⟨zs', hzs, hyz⟩ := array_of_compared hbc
    obtain rfl := Value.array.inj hzs
    exact Or.inr (Or.inr ⟨_, _, _, rfl, rfl, rfl, hxy, hyz, hxz⟩)

theorem cmpItems_then {x y : Value} {xs ys : List Value}
    (h : cmpItems rt (x :: xs) (y :: ys) = .ok p) :
    ∃ p₁ p₂, p = p₁.then p₂ ∧ cmpValues rt x y = .ok p₁
      ∧ (p₁ = .eq → cmpItems rt xs ys = .ok p₂) := by
  obtain ⟨p₁, hhead, ⟨rfl, htail⟩ | ⟨hne, rfl⟩⟩ := cmpItems_cons h
  · exact ⟨.eq, p, rfl, hhead, fun _ => htail⟩
  · exact ⟨p, .eq, Ordering.then_eq.symm, hhead, fun h => absurd h hne⟩

mutual

theorem coherent_values (law : RoundsToNearest rt) {a b c : Value} {p q r : Ordering}
    (hab : cmpValues rt a b = .ok p) (hbc : cmpValues rt b c = .ok q)
    (hac : cmpValues rt a c = .ok r) (hnumbers : ¬ (Torn rt a b c ∨ Torn rt b a c ∨ Torn rt a c b))
    (harrays : ∀ xs ys zs, a = .array xs → b = .array ys → c = .array zs → ¬ TornItems rt xs
      ys zs) :
    Coherent p q r := by
  rcases compared_triple law hab hbc hac with ⟨f, g, h, hf, hg, hh⟩ | ⟨s, t, u, rfl, rfl, rfl, -⟩ |
    ⟨xs, ys, zs, rfl, rfl, rfl, hxy, hyz, hxz⟩
  · exact coherent_numbers law hf hg hh hab hbc hac hnumbers
  · exact coherent_order s t u
  · exact coherent_items law hxy hyz hxz (harrays xs ys zs rfl rfl rfl)
termination_by sizeOf a

theorem coherent_items (law : RoundsToNearest rt) {xs ys zs : List Value} {p q r : Ordering}
    (hxy : cmpItems rt xs ys = .ok p) (hyz : cmpItems rt ys zs = .ok q)
    (hxz : cmpItems rt xs zs = .ok r) (hwhole : ¬ TornItems rt xs ys zs) : Coherent p q r := by
  match xs, ys, zs with
  | x :: xs, y :: ys, z :: zs =>
    obtain ⟨p₁, p₂, rfl, hp₁, hp₂⟩ := cmpItems_then hxy
    obtain ⟨q₁, q₂, rfl, hq₁, hq₂⟩ := cmpItems_then hyz
    obtain ⟨r₁, r₂, rfl, hr₁, hr₂⟩ := cmpItems_then hxz
    refine coherent_then (coherent_values law hp₁ hq₁ hr₁ (fun h => hwhole (.numbers h)) ?_) ?_
    · rintro us vs ws rfl rfl rfl h
      exact hwhole (.arrays h)
    · intro hp hq hr
      exact coherent_items law (hp₂ hp) (hq₂ hq) (hr₂ hr) fun h =>
        hwhole (.tail ((eq_iff_valuesEq hp₁).mp hp) ((eq_iff_valuesEq hq₁).mp hq)
          ((eq_iff_valuesEq hr₁).mp hr) h)
  -- where an array has ended, two of the three results are those of the lengths
  | [], [], zs | [], y :: ys, [] | x :: xs, [], [] =>
    obtain rfl := Except.ok.inj hxy
    obtain rfl := Except.ok.inj hyz
    obtain rfl := Except.ok.inj hxz
    exact coherent_order _ _ _
  | [], y :: ys, z :: zs =>
    obtain rfl := (Except.ok.inj hxy).symm.trans (order_lt (Nat.succ_pos _))
    obtain rfl := (Except.ok.inj hxz).symm.trans (order_lt (Nat.succ_pos _))
    exact fun _ => rfl
  | x :: xs, [], z :: zs =>
    obtain rfl := (Except.ok.inj hxy).symm.trans (order_gt (Nat.succ_pos _))
    obtain rfl := (Except.ok.inj hyz).symm.trans (order_lt (Nat.succ_pos _))
    rintro (⟨hp, -⟩ | ⟨-, hq⟩)
    · exact absurd rfl hp
    · exact absurd rfl hq
  | x :: xs, y :: ys, [] =>
    obtain rfl := (Except.ok.inj hyz).symm.trans (order_gt (Nat.succ_pos _))
    obtain rfl := (Except.ok.inj hxz).symm.trans (order_gt (Nat.succ_pos _))
    rintro (⟨-, hq⟩ | ⟨hp, -⟩)
    · exact absurd rfl hq
    · cases p <;> first | rfl | exact absurd rfl hp
termination_by sizeOf xs

end

theorem exists_doublePlace {t : Int} (ht : -2 ^ 63 ≤ t ∧ t < 2 ^ 63) : ∃ f, doublePlace f = t := by
  refine ⟨⟨BitVec.ofNat 64 (if 0 ≤ t then t.toNat else (2 ^ 63 - 1 - t).toNat)⟩, ?_⟩
  rw [doublePlace, totalOrder, BitVec.toNat_ofNat]
  split <;> split <;> omega

theorem exists_nearestF64 (x : ℚ) : ∃ f, NearestF64 x f := by
  obtain ⟨t, ht⟩ :=
    Nearest.exists (p := 52) (by norm_num : 0 < (2 ^ 11 - 1) * 2 ^ 52) (x * 2 ^ 1074)
  obtain ⟨hlo, hhi⟩ := ht.closest.1
  obtain ⟨f, rfl⟩ := @exists_doublePlace t ⟨by omega, by omega⟩
  exact ⟨f, ht⟩

noncomputable def roundingRuntime : Runtime :=
  { (default : Runtime) with decimalToF64 := fun d => some (exists_nearestF64 d.number).choose }

theorem roundsToNearest_roundingRuntime : RoundsToNearest roundingRuntime :=
  fun d => ⟨_, rfl, (exists_nearestF64 d.number).choose_spec⟩

/-! ### The order of the values -/

/-- **Where `cmp_values` is a preorder.**  It always reverses with its sides; three
    values that are not arrays are in order exactly where they are not torn, and arrays
    where their items are not. -/
theorem cmp_values_preorder {rt : Runtime} (law : RoundsToNearest rt) {a b c : Value}
    {p q r : Ordering} (hab : cmpValues rt a b = .ok p) (hbc : cmpValues rt b c = .ok q)
    (hac : cmpValues rt a c = .ok r) :
    cmpValues rt b a = .ok p.swap
      ∧ (¬ Torn rt a b c →
          (∀ xs ys zs, a = .array xs → b = .array ys → c = .array zs → ¬ TornItems rt xs ys zs) →
          Chains p q r)
      ∧ (Torn rt a b c → ¬ Chains p q r) := by
  refine ⟨cmpValues_swap hab, ?_⟩
  rcases compared_triple law hab hbc hac with ⟨f, g, h, hf, hg, hh⟩ |
    ⟨s, t, u, rfl, rfl, rfl, ha, hb⟩ | ⟨xs, ys, zs, rfl, rfl, rfl, hxy, hyz, hxz⟩
  · have hiff := chains_iff_not_torn law hf hg hh hab hbc hac
    exact ⟨fun hwhole _ => hiff.mpr hwhole, fun htorn hchains => hiff.mp hchains htorn⟩
  · refine ⟨fun _ _ => chains_order s t u, fun htorn => ?_⟩
    simp only [Torn, ha, hb] at htorn
  · refine ⟨fun _ hitems => ?_, fun htorn => htorn.elim⟩
    exact (coherent_items law hxy hyz hxz (hitems xs ys zs rfl rfl rfl)).chains

theorem cmp_values_preorder_arrays :
    Chains .lt .lt .lt
      ∧ cmpValues roundingRuntime (.array [.int64 1, .text "b"]) (.array [.int64 1, .text "a"])
        = .ok .gt := by
  have hwhole : ¬ TornItems roundingRuntime [.int64 1, .text "a"] [.int64 1, .text "b"]
      [.int64 2, .text "a"] := by
    intro h
    cases h with
    | numbers h => rcases h with h | h | h <;> exact h
    | tail _ hyz _ _ => simp [valuesEq, asI64] at hyz
  obtain ⟨hswap, hchains, -⟩ := cmp_values_preorder roundsToNearest_roundingRuntime
    (show cmpValues _ (.array [.int64 1, .text "a"]) (.array [.int64 1, .text "b"]) = .ok .lt by
      decide +kernel)
    (show cmpValues _ _ (.array [.int64 2, .text "a"]) = .ok .lt by decide +kernel)
    (show _ = Except.ok .lt by decide +kernel)
  refine ⟨hchains (fun h => h) ?_, hswap⟩
  rintro xs ys zs hx hy hz
  obtain rfl := Value.array.inj hx
  obtain rfl := Value.array.inj hy
  obtain rfl := Value.array.inj hz
  exact hwhole

/-- **Two integers equal to one double.** -/
theorem cmp_values_twoPow53 :
    RoundsToNearest roundingRuntime
      ∧ cmpValues roundingRuntime (.int64 9007199254740993) (.float64 0x4340000000000000) = .ok .eq
      ∧ cmpValues roundingRuntime (.float64 0x4340000000000000) (.int64 9007199254740992) = .ok .eq
      ∧ cmpValues roundingRuntime (.int64 9007199254740993) (.int64 9007199254740992)
        = .ok .gt := by
  exact ⟨roundsToNearest_roundingRuntime, by decide +kernel, by decide +kernel, by decide +kernel⟩

end StrataDb.Sql
