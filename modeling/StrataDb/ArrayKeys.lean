import StrataDb.JoinKeys
import StrataDb.Numbers

/-!
# Keys of arrays (`storage/codec/mod.rs`: the array arm of `Value::encode_key`)

The keys of the items stand one after the other with nothing between them. That keeps the order as
long as the words where two lists stop agreeing do not cut one another off: for every item type
whose keys no other key of the type extends, but not for texts, bytes and JSON.
-/

namespace StrataDb.LexOrder

/-! ### Concatenating words -/

section Words

variable {α : Type}

/-- Where two lists of words stop agreeing, neither word is a proper prefix of the other;
    where one list ends, the rest of the other is not all empty words. -/
def Clear : List (List α) → List (List α) → Prop
  | [], ys => ys = [] ∨ ys.flatten ≠ []
  | xs, [] => xs = [] ∨ xs.flatten ≠ []
  | x :: xs, y :: ys => Apart x y ∧ (x = y → Clear xs ys)

theorem clear_of_apart {xs ys : List (List α)} (hapart : ∀ x ∈ xs, ∀ y ∈ ys, Apart x y)
    (hx : ∀ x ∈ xs, x ≠ []) (hy : ∀ y ∈ ys, y ≠ []) : Clear xs ys := by
  have hrest {zs : List (List α)} (hz : ∀ z ∈ zs, z ≠ []) : zs = [] ∨ zs.flatten ≠ [] := by
    cases zs with
    | nil => exact Or.inl rfl
    | cons z zs => exact Or.inr fun h => hz z List.mem_cons_self (List.append_eq_nil_iff.mp h).1
  induction xs generalizing ys with
  | nil => simpa only [Clear] using hrest hy
  | cons x xs ih =>
    cases ys with
    | nil => simpa only [Clear] using hrest hx
    | cons y ys =>
      refine ⟨hapart x List.mem_cons_self y List.mem_cons_self, fun _ => ih ?_ ?_ ?_⟩
      · exact fun u hu v hv => hapart u (List.mem_cons_of_mem _ hu) v (List.mem_cons_of_mem _ hv)
      · exact fun u hu => hx u (List.mem_cons_of_mem _ hu)
      · exact fun v hv => hy v (List.mem_cons_of_mem _ hv)

end Words

section Concat

variable {α : Type} [LinearOrder α]

theorem order_append_apart {xs ys : List α} (h : Apart xs ys) (xs' ys' : List α) :
    order (xs ++ xs') (ys ++ ys') = (order xs ys).then (order xs' ys') := by
  induction xs generalizing ys with
  | nil =>
    obtain rfl : [] = ys := h (Or.inl List.nil_prefix)
    rw [order_self]
    rfl
  | cons x xs ih =>
    cases ys with
    | nil => cases h (Or.inr List.nil_prefix)
    | cons y ys =>
      rw [List.cons_append, List.cons_append, order_cons_cons, order_cons_cons]
      rcases lt_trichotomy x y with hxy | rfl | hxy
      · rw [order_lt hxy]
        rfl
      · rw [order_self, Ordering.then, Ordering.then, ih h.of_cons]
      · rw [order_gt hxy]
        rfl

/-- **The concatenations compare as the lists of words do.** -/
theorem order_flatten {xs ys : List (List α)} (h : Clear xs ys) :
    order xs.flatten ys.flatten = order xs ys := by
  have hrest {ys : List (List α)} (h : ys = [] ∨ ys.flatten ≠ []) :
      order [] ys.flatten = order [] ys := by
    cases ys with
    | nil => simp
    | cons y ys =>
      obtain ⟨c, cs, hcs⟩ := List.exists_cons_of_ne_nil (h.resolve_left (List.cons_ne_nil y ys))
      rw [hcs, order_nil_cons, order_nil_cons]
  induction xs generalizing ys with
  | nil => exact hrest (by simpa only [Clear] using h)
  | cons x xs ih =>
    cases ys with
    | nil =>
      have h' := hrest (by simpa only [Clear] using h)
      rw [← order_swap, List.flatten_nil, h', order_swap]
    | cons y ys =>
      obtain ⟨hapart, htail⟩ := h
      rw [List.flatten_cons, List.flatten_cons, order_append_apart hapart, order_cons_cons]
      by_cases hxy : x = y
      · rw [ih (htail hxy)]
      · cases hord : order x y with
        | eq => exact absurd (order_eq_eq.mp hord) hxy
        | lt => rfl
        | gt => rfl

end Concat

end StrataDb.LexOrder

namespace StrataDb.Sql

open ByteCodec LexOrder

variable {rt : Runtime} {element : LogicalType} {as bs : List Value}

/-! ### Items -/

def LogicalType.isContents : LogicalType → Bool
  | .text | .bytes | .json => true
  | _ => false

def LogicalType.isScalar : LogicalType → Bool
  | .array _ => false
  | _ => true

/-- No `REAL` among the values is a signalling NaN. -/
def Quiet (vs : List Value) : Prop :=
  ∀ bits, .float32 bits ∈ vs → isSignalling bits = false

theorem encodeKey_scalar (hscalar : element.isScalar = true) {v : Value}
    (hv : v.hasType element = true) : v.encodeKey = .ok (bytesRank v) := by
  cases element <;> cases hscalar <;> cases v <;> cases hv <;> rfl

theorem encodeKeys_scalars (hscalar : element.isScalar = true)
    (has : allHaveType as element = true) :
    encodeKeys as = .ok (as.map bytesRank).flatten := by
  induction as with
  | nil => rfl
  | cons a as ih =>
    rw [allHaveType, Bool.and_eq_true] at has
    rw [encodeKeys, encodeKey_scalar hscalar has.1, ih has.2]
    rfl

theorem cmpValues_scalar (hordered : element.isOrderedScalar = true) {u v : Value}
    (hquiet : Quiet [u, v]) (hu : u.hasType element = true) (hv : v.hasType element = true) :
    cmpValues rt u v = .ok (order (bytesRank u) (bytesRank v)) := by
  obtain ⟨ku, kv, hku, hkv, hord⟩ := order_encodeKey rt hordered hu hv
  rw [bytesRank_of_encodeKey hku, bytesRank_of_encodeKey hkv, ← hord]
  by_cases hfloat : element = .float32
  · subst hfloat
    cases u <;> cases hu
    cases v <;> cases hv
    exact congrArg Except.ok (totalCmp_f64OfF32 (hquiet _ (by simp)) (hquiet _ (by simp)))
  · exact (keyOrder_eq_cmpValues rt hordered hfloat hu hv).symm

theorem cmpItems_scalars (rt : Runtime) (hquiet : Quiet (as ++ bs))
    (hordered : element.isOrderedScalar = true) (has : allHaveType as element = true)
    (hbs : allHaveType bs element = true) :
    cmpItems rt as bs = .ok (order (as.map bytesRank) (bs.map bytesRank)) := by
  induction as generalizing bs with
  | nil =>
    cases bs with
    | nil => rfl
    | cons b bs =>
      rw [List.map_cons, List.map_nil, order_nil_cons]
      exact congrArg Except.ok (order_lt (Nat.succ_pos _))
  | cons a as ih =>
    cases bs with
    | nil =>
      rw [List.map_cons, List.map_nil, order_cons_nil]
      exact congrArg Except.ok (order_gt (Nat.succ_pos _))
    | cons b bs =>
      rw [allHaveType, Bool.and_eq_true] at has hbs
      rw [List.map_cons, List.map_cons, order_cons_cons, cmpItems,
        cmpValues_scalar hordered (fun bits h => hquiet bits (by simp at h ⊢; tauto)) has.1 hbs.1,
        ih (fun bits h => hquiet bits (by simp at h ⊢; tauto)) has.2 hbs.2]
      cases order (bytesRank a) (bytesRank b) <;> rfl

/-! ### Arrays -/

/-- How two arrays compare: by `cmp_values`, and item by item in byte order where that
    has no order for the items. -/
def arrayOrder (rt : Runtime) (element : LogicalType) (as bs : List Value) : Outcome Ordering :=
  match element with
  | .bytes | .json => .ok (order (as.map bytesRank) (bs.map bytesRank))
  | _ => cmpValues rt (.array as) (.array bs)

theorem arrayOrder_eq (rt : Runtime) (hquiet : Quiet (as ++ bs)) (hscalar : element.isScalar = true)
    (has : allHaveType as element = true) (hbs : allHaveType bs element = true) :
    arrayOrder rt element as bs = .ok (order (as.map bytesRank) (bs.map bytesRank)) := by
  by_cases hordered : element.isOrderedScalar = true
  · have hitems := cmpItems_scalars rt hquiet hordered has hbs
    cases element <;> cases hordered <;> exact hitems
  · cases element <;> first | exact absurd rfl hordered | rfl | cases hscalar

theorem Decimal.encodeKey_ne_nil (d : Decimal) : d.encodeKey ≠ [] := by
  rw [Decimal.encodeKey]
  rcases Decimal.signedKey_cases d.normalize with ⟨h, -⟩ | ⟨-, h, -⟩ | ⟨-, h, -⟩ <;> rw [h] <;>
    exact List.cons_ne_nil _ _

theorem clear_keys (hscalar : element.isScalar = true) (hcontents : element.isContents = false)
    (has : allHaveType as element = true) (hbs : allHaveType bs element = true) :
    Clear (as.map bytesRank) (bs.map bytesRank) := by
  have hordered : element.isOrderedScalar = true := by
    cases element <;> first | rfl | (cases hscalar; done) | cases hcontents
  have htext : element ≠ .text := by
    rintro rfl
    cases hcontents
  have hnil {cs : List Value} (hcs : allHaveType cs element = true) :
      ∀ k ∈ cs.map bytesRank, k ≠ [] := by
    intro k hk
    obtain ⟨c, hc, rfl⟩ := List.mem_map.mp hk
    have hty := allHaveType_iff.mp hcs c hc
    cases hw : element.keyWidth with
    | some w =>
      have hlen := length_encodeKey hw hty (encodeKey_scalar hscalar hty)
      intro h
      rw [h] at hlen
      exact absurd hlen (Nat.ne_of_lt (keyWidth_pos hw))
    | none =>
      obtain rfl : element = .numeric := by
        cases element <;>
          first | rfl | (cases hw; done) | (cases hcontents; done) | cases hscalar
      cases c <;> cases hty
      exact Decimal.encodeKey_ne_nil _
  refine clear_of_apart ?_ (hnil has) (hnil hbs)
  intro k hk l hl
  obtain ⟨a, ha, rfl⟩ := List.mem_map.mp hk
  obtain ⟨b, hb, rfl⟩ := List.mem_map.mp hl
  have hta := allHaveType_iff.mp has a ha
  have htb := allHaveType_iff.mp hbs b hb
  exact apart_encodeKey hordered htext hta htb (encodeKey_scalar hscalar hta)
    (encodeKey_scalar hscalar htb)

/-- **Array keys keep arrays apart and in order**, for texts, bytes and JSON where the
    items of the two arrays do not cut one another off. -/
theorem array_keys_in_order {rt : Runtime} {element : LogicalType}
    (hscalar : element.isScalar = true) {as bs : List Value} (hquiet : Quiet (as ++ bs))
    (has : allHaveType as element = true) (hbs : allHaveType bs element = true)
    (hclear : element.isContents = true → Clear (as.map bytesRank) (bs.map bytesRank)) :
    ∃ ka kb, (Value.array as).encodeKey = .ok ka ∧ (Value.array bs).encodeKey = .ok kb
      ∧ arrayOrder rt element as bs = .ok (order ka kb)
      ∧ (ka = kb ↔ arrayOrder rt element as bs = .ok .eq) := by
  have hwords : Clear (as.map bytesRank) (bs.map bytesRank) := by
    cases hcontents : element.isContents with
    | true => exact hclear hcontents
    | false => exact clear_keys hscalar hcontents has hbs
  have hord := arrayOrder_eq rt hquiet hscalar has hbs
  rw [← order_flatten hwords] at hord
  refine ⟨_, _, encodeKeys_scalars hscalar has, encodeKeys_scalars hscalar hbs, hord, ?_⟩
  rw [hord, Except.ok.injEq, order_eq_eq]

theorem array_keys_in_order_texts :
    ∃ ka kb, (Value.array [.text "a", .text "b"]).encodeKey = .ok ka
      ∧ (Value.array [.text "b"]).encodeKey = .ok kb
      ∧ arrayOrder default .text [.text "a", .text "b"] [.text "b"] = .ok (order ka kb)
      ∧ (ka = kb ↔ arrayOrder default .text [.text "a", .text "b"] [.text "b"] = .ok .eq) :=
  array_keys_in_order rfl (by simp [Quiet]) rfl rfl fun _ =>
    ⟨apart_of_length rfl, fun h => by cases h⟩

/-- **Two arrays of texts with one key.** -/
theorem array_keys_shared :
    (Value.array [.text "a", .text "b"]).encodeKey = (Value.array [.text "ab"]).encodeKey
      ∧ cmpValues default (.array [.text "a", .text "b"]) (.array [.text "ab"]) = .ok .lt :=
  ⟨by decide +kernel, by decide +kernel⟩

end StrataDb.Sql
