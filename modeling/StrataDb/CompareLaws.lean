import StrataDb.JoinKeys
import StrataDb.ScalarFunction

/-!
# What a comparison of two values is (`query/expression/mod.rs`: `cmp_values`, `values_eq`)

`Compared` says what `cmp_values` can have done when it returns an order: compared exact numbers
as decimals, numbers with a float among them as doubles, two values of one other type by a rank,
or arrays item by item. `values_eq` is true exactly where the order is `Equal`.
-/

namespace StrataDb.Sql

open ByteCodec LexOrder

variable {rt : Runtime} {a b : Value} {o : Ordering}

/-! ### The domains -/

/-- Where a comparable value that is no number and no array stands: a number for its
    type, and its place among the values of that type. -/
def plainRank : Value → Option (Nat × List Int)
  | .bool b => some (0, [if b then 1 else 0])
  | .text s => some (1, (utf8 s).map fun b => (b.toNat : Int))
  | .date d => some (2, [d.toInt])
  | .timestamp t => some (3, [t.toInt])
  | .time t => some (4, [t.toInt])
  | .uuid u => some (5, u.bytes.map fun b => (b.toNat : Int))
  | .interval i => some (6, [i.toMicros])
  | _ => none

/-- The domain a comparison was made in, and its result there. -/
inductive Compared (rt : Runtime) : Value → Value → Ordering → Prop
  | exact {a b : Value} {x y : Decimal} (ha : asDecimal a = some x) (hb : asDecimal b = some y) :
      Compared rt a b (x.compare y)
  | double {a b : Value} {x y : UInt64} (hfloat : asDecimal a = none ∨ asDecimal b = none)
      (ha : asF64 rt a = some x) (hb : asF64 rt b = some y) : Compared rt a b (totalCmp x y)
  | plain {a b : Value} {k : Nat} {r s : List Int} (ha : plainRank a = some (k, r))
      (hb : plainRank b = some (k, s)) : Compared rt a b (order r s)
  | array {xs ys : List Value} {o : Ordering} (h : cmpItems rt xs ys = .ok o) :
      Compared rt (.array xs) (.array ys) o

theorem order_singleton {α : Type} [LinearOrder α] (x y : α) : order [x] [y] = order x y := by
  rw [order_cons_cons, order_self, Ordering.then_eq]

theorem order_byteInts (xs ys : Bytes) :
    order (xs.map fun b => (b.toNat : Int)) (ys.map fun b => (b.toNat : Int)) = order xs ys := by
  refine order_map_list (fun b c hlt => ?_) xs ys
  exact Int.ofNat_lt.mpr (UInt8.lt_iff_toNat_lt.mp hlt)

theorem order_boolInt (x y : Bool) :
    order (if x then (1 : Int) else 0) (if y then 1 else 0) = order x y := by
  cases x <;> cases y <;> decide

/-- **Every comparison is made in one of the four domains.** -/
theorem compared_of_cmpValues (hcmp : cmpValues rt a b = .ok o) : Compared rt a b o := by
  unfold cmpValues at hcmp
  split at hcmp
  · rename_i x y hx hy
    have hdec {v : Value} {n : Int64} (h : asI64 v = some n) : asDecimal v = some (.ofInt64 n) := by
      cases v <;> cases h <;> rfl
    obtain rfl := Except.ok.inj hcmp
    rw [← Decimal.compare_ofInt64]
    exact .exact (hdec hx) (hdec hy)
  split at hcmp
  · rename_i x y hx hy
    obtain rfl := Except.ok.inj hcmp
    exact .exact hx hy
  rename_i hexact
  split at hcmp
  · rename_i x y hx hy
    obtain rfl := Except.ok.inj hcmp
    refine .double ?_ hx hy
    cases ha : asDecimal a with
    | none => exact Or.inl rfl
    | some x =>
      cases hb : asDecimal b with
      | none => exact Or.inr rfl
      | some y => exact absurd hb (hexact x y ha)
  have hplain {v w : Value} {k : Nat} {r s : List Int} {o : Ordering}
      (hv : plainRank v = some (k, r)) (hw : plainRank w = some (k, s)) (ho : order r s = o) :
      Compared rt v w o := ho ▸ .plain hv hw
  split at hcmp
  case h_8 => exact .array hcmp
  case h_9 => cases hcmp
  all_goals obtain rfl := Except.ok.inj hcmp
  · exact hplain rfl rfl (by rw [order_singleton, order_boolInt])
  · exact hplain rfl rfl (order_byteInts _ _)
  · exact hplain rfl rfl (order_singleton _ _)
  · exact hplain rfl rfl (order_singleton _ _)
  · exact hplain rfl rfl (order_singleton _ _)
  · exact hplain rfl rfl (order_byteInts _ _)
  · exact hplain rfl rfl (order_singleton _ _)

theorem cmpItems_cons {x y : Value} {xs ys : List Value}
    (h : cmpItems rt (x :: xs) (y :: ys) = .ok o) :
    ∃ p, cmpValues rt x y = .ok p
      ∧ ((p = .eq ∧ cmpItems rt xs ys = .ok o) ∨ (p ≠ .eq ∧ o = p)) := by
  unfold cmpItems at h
  split at h
  · exact ⟨.eq, ‹_›, Or.inl ⟨rfl, h⟩⟩
  · rename_i hne
    refine ⟨o, h, Or.inr ⟨?_, rfl⟩⟩
    rintro rfl
    exact hne h

/-! ### Equality -/

theorem valuesEq_plain {k : Nat} {r s : List Int} (ha : plainRank a = some (k, r))
    (hb : plainRank b = some (k, s)) : valuesEq rt a b = true ↔ order r s = .eq := by
  have hone (x y : Int) : order [x] [y] = .eq ↔ x = y := by
    rw [order_singleton, order_eq_eq]
  have hbool (x y : Bool) : ((if x then (1 : Int) else 0) = if y then 1 else 0) ↔ x = y := by
    cases x <;> cases y <;> decide
  cases a <;> cases ha <;> cases b <;> cases hb <;>
    simp only [valuesEq, asI64, asDecimal, asF64, structuralEq, beq_iff_eq, hone, hbool,
      order_byteInts, order_eq_eq, Int64.toInt_inj, Int32.toInt_inj, utf8_inj, Uuid.bytes_inj]

mutual

theorem eq_iff_valuesEq {a b : Value} {o : Ordering} (hcmp : cmpValues rt a b = .ok o) :
    o = .eq ↔ valuesEq rt a b = true := by
  cases compared_of_cmpValues hcmp with
  | exact ha hb => exact (valuesEq_asDecimal rt ha hb).symm
  | double hfloat ha hb => exact (cmpValues_asF64 ha hb hfloat).2.symm
  | plain ha hb => exact (valuesEq_plain ha hb).symm
  | @array xs ys _ hitems =>
    rw [eq_iff_itemsEq hitems]
    simp only [valuesEq, asI64, asDecimal, asF64, Bool.and_eq_true, beq_iff_eq]
termination_by sizeOf a

/-- `cmp_items` stops at the first pair that differs, `items_eq` at the first that is not
    equal, and `values_eq` has compared the lengths before. -/
theorem eq_iff_itemsEq {xs ys : List Value} {o : Ordering} (hcmp : cmpItems rt xs ys = .ok o) :
    o = .eq ↔ xs.length = ys.length ∧ itemsEq rt xs ys = true := by
  match xs, ys with
  | [], ys =>
    obtain rfl := Except.ok.inj hcmp
    rw [order_eq_eq]
    exact ⟨fun h => ⟨h, rfl⟩, And.left⟩
  | x :: xs, [] =>
    obtain rfl := Except.ok.inj hcmp
    rw [order_eq_eq]
    exact ⟨fun h => ⟨h, rfl⟩, And.left⟩
  | x :: xs, y :: ys =>
    obtain ⟨p, hhead, ⟨rfl, htail⟩ | ⟨hne, rfl⟩⟩ := cmpItems_cons hcmp
    · have hxy := (eq_iff_valuesEq hhead).mp rfl
      rw [eq_iff_itemsEq htail, itemsEq, hxy, Bool.true_and, List.length_cons, List.length_cons,
        Nat.add_right_cancel_iff]
    · have hxy := mt (eq_iff_valuesEq hhead).mpr hne
      rw [itemsEq, Bool.and_eq_true]
      exact ⟨fun h => absurd h hne, fun h => absurd h.2.1 hxy⟩
termination_by sizeOf xs

end

theorem isNull_of_cmpValues (hcmp : cmpValues rt a b = .ok o) :
    a.isNull = false ∧ b.isNull = false := by
  have hexact {v : Value} {x : Decimal} (h : asDecimal v = some x) : v.isNull = false := by
    cases v <;> first | rfl | cases h
  have hdouble {v : Value} {x : UInt64} (h : asF64 rt v = some x) : v.isNull = false := by
    cases v <;> first | rfl | cases h
  have hplain {v : Value} {r : Nat × List Int} (h : plainRank v = some r) : v.isNull = false := by
    cases v <;> first | rfl | cases h
  cases compared_of_cmpValues hcmp with
  | exact ha hb => exact ⟨hexact ha, hexact hb⟩
  | double _ ha hb => exact ⟨hdouble ha, hdouble hb⟩
  | plain ha hb => exact ⟨hplain ha, hplain hb⟩
  | array _ => exact ⟨rfl, rfl⟩

theorem evalBinary_of_cmpValues (hcmp : cmpValues rt a b = .ok o) :
    evalBinary rt .eq a b = .ok (.bool (valuesEq rt a b))
      ∧ evalBinary rt .ltEq a b = .ok (.bool o.isLE)
      ∧ evalBinary rt .gtEq a b = .ok (.bool o.isGE) := by
  obtain ⟨ha, hb⟩ := isNull_of_cmpValues hcmp
  simp only [evalBinary, shortCircuit, ha, hb, Bool.or_self, hcmp]
  exact ⟨rfl, rfl, rfl⟩

/-- **Equality and order agree.** -/
theorem eq_iff_le_and_ge {rt : Runtime} {a b : Value} {o : Ordering}
    (hcmp : cmpValues rt a b = .ok o) :
    (o = .eq ↔ valuesEq rt a b = true)
      ∧ ∃ le ge, evalBinary rt .ltEq a b = .ok le ∧ evalBinary rt .gtEq a b = .ok ge
        ∧ evalBinary rt .eq a b = evalBinary rt .and le ge := by
  have heq := eq_iff_valuesEq hcmp
  obtain ⟨hEq, hLe, hGe⟩ := evalBinary_of_cmpValues hcmp
  refine ⟨heq, _, _, hLe, hGe, ?_⟩
  rw [hEq]
  cases o with
  | lt => rw [Bool.eq_false_iff.mpr (mt heq.mpr nofun)]; rfl
  | eq => rw [heq.mp rfl]; rfl
  | gt => rw [Bool.eq_false_iff.mpr (mt heq.mpr nofun)]; rfl

theorem eq_iff_le_and_ge_arrays :
    cmpValues default (.array [.int16 1, .text "b"]) (.array [.int64 1, .text "b"]) = .ok .eq
      ∧ valuesEq default (.array [.int16 1, .text "b"]) (.array [.int64 1, .text "b"]) = true := by
  have hcmp : cmpValues default (.array [.int16 1, .text "b"]) (.array [.int64 1, .text "b"])
      = .ok .eq := by decide +kernel
  exact ⟨hcmp, (eq_iff_le_and_ge hcmp).1.mp rfl⟩

end StrataDb.Sql
