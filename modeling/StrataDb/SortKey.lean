import StrataDb.Expression
import StrataDb.KeyCodec
import StrataDb.Runs

/-!
# `ORDER BY` keys as bytes (`crates/strata-db/src/query/volcano/sort.rs`: `sort_key_bytes`)

One byte string per sort key: a byte that places `NULL`, then the value's key, complemented for
`DESC`. Complementing reverses the comparison exactly if neither key is cut off by the other, and
the keys of texts and arrays have no terminator (`order_by_orders`, `desc_text_prefix_first`).
-/

namespace StrataDb.Sql

open ByteCodec LexOrder
open Runs (bind_eq_ok)

structure SortKey where
  expr : Expr
  ascending : Bool
  nullsFirst : Bool

/-- The part of one key for a value. -/
def SortKey.part (key : SortKey) (value : Value) : Outcome Bytes :=
  if value.isNull then
    -- where `NULL` stands does not depend on the direction
    .ok [if key.nullsFirst then 0 else 1]
  else
    match value.encodeKey with
    | .ok bytes =>
      .ok ((if key.nullsFirst then 1 else 0) :: if key.ascending then bytes else bytes.map
        fun b => ~~~b)
    | .error .nullKey => typeError "cannot ORDER BY this value: NullKey"

def sortKeyBytes (rt : Runtime) (tuple : Tuple) : List SortKey → Outcome (List Bytes)
  | [] => .ok []
  | key :: keys => do
    let value ← key.expr.eval rt tuple
    let part ← key.part value
    let parts ← sortKeyBytes rt tuple keys
    return part :: parts

theorem sortKeyBytes_cons {rt : Runtime} {tuple : Tuple} {key : SortKey} {keys : List SortKey}
    {v : Value} {part : Bytes} {parts : List Bytes} (hv : key.expr.eval rt tuple = .ok v)
    (hpart : key.part v = .ok part) (hparts : sortKeyBytes rt tuple keys = .ok parts) :
    sortKeyBytes rt tuple (key :: keys) = .ok (part :: parts) :=
  bind_eq_ok.mpr ⟨v, hv, bind_eq_ok.mpr ⟨part, hpart, bind_eq_ok.mpr ⟨parts, hparts, rfl⟩⟩⟩

/-! ### The order asked for -/

/-- How two values of a sort key compare: `NULL` where it was placed, other values by
    their order, reversed for `DESC`. -/
def SortKey.compare (rt : Runtime) (key : SortKey) (a b : Value) : Outcome Ordering :=
  match a.isNull, b.isNull with
  | true, true => .ok .eq
  | true, false => .ok (if key.nullsFirst then .lt else .gt)
  | false, true => .ok (if key.nullsFirst then .gt else .lt)
  | false, false => do
    let ord ← keyOrder rt a b
    return if key.ascending then ord else ord.swap

/-- The first key that differs decides. -/
def sqlOrder (rt : Runtime) (s t : Tuple) : List SortKey → Outcome Ordering
  | [] => .ok .eq
  | key :: keys => do
    match ← key.compare rt (← key.expr.eval rt s) (← key.expr.eval rt t) with
    | .eq => sqlOrder rt s t keys
    | ord => return ord

def SortKey.OneType (rt : Runtime) (key : SortKey) (s t : Tuple) : Prop :=
  ∃ ty a b, ty.isSortable = true ∧ key.expr.eval rt s = .ok a ∧ key.expr.eval rt t = .ok b
    ∧ a.fits ty = true ∧ b.fits ty = true

def Value.isTextOrArray : Value → Bool
  | .text _ | .array _ => true
  | _ => false

/-- Of two texts or arrays that a `DESC` key has at the tuples, neither key is cut off by
    the other. -/
def SortKey.NotCut (rt : Runtime) (key : SortKey) (s t : Tuple) : Prop :=
  key.ascending = false → ∀ a b ka kb, key.expr.eval rt s = .ok a → key.expr.eval rt t = .ok b →
    a.isTextOrArray = true → a.encodeKey = .ok ka → b.encodeKey = .ok kb → Apart ka kb

def SortKey.Ties (rt : Runtime) (key : SortKey) (s t : Tuple) : Prop :=
  ∃ a b, key.expr.eval rt s = .ok a ∧ key.expr.eval rt t = .ok b ∧ key.compare rt a b = .ok .eq

/-- The key that decides is not a `DESC` key that is cut off.  One that is cut off does not
    tie, so the keys behind the first that differs are not asked. -/
def DecidesUncut (rt : Runtime) (s t : Tuple) : List SortKey → Prop
  | [] => True
  | key :: keys => key.NotCut rt s t ∧ (key.Ties rt s t → DecidesUncut rt s t keys)

section OneKey

variable {rt : Runtime} {key : SortKey} {ty : LogicalType} {a b : Value}

theorem part_null (key : SortKey) : key.part .null = .ok [if key.nullsFirst then 0 else 1] := rfl

theorem part_of_encodeKey {k : Bytes} (hk : a.encodeKey = .ok k) :
    key.part a = .ok ((if key.nullsFirst then 1 else 0)
      :: if key.ascending then k else k.map fun b => ~~~b) := by
  have hnull : a.isNull = false := by cases a <;> first | rfl | cases hk
  rw [SortKey.part, hnull, if_neg (by decide), hk]

theorem order_complemented (hty : ty.isSortable = true) (ha : a.hasType ty = true)
    (hb : b.hasType ty = true) {ka kb : Bytes} (hka : a.encodeKey = .ok ka)
    (hkb : b.encodeKey = .ok kb) :
    order (ka.map fun b => ~~~b) (kb.map fun b => ~~~b) = (order ka kb).swap
      ↔ (a.isTextOrArray = true → Apart ka kb) := by
  rw [order_swap, order_map_anti complement_strictAnti]
  refine ⟨fun h _ => h, fun hcut => ?_⟩
  by_cases hvar : a.isTextOrArray = true
  · exact hcut hvar
  · refine apart_encodeKey ?_ ?_ ha hb hka hkb
    · cases ty <;> first | exact hty | (cases a <;> first | exact absurd rfl hvar | cases ha)
    · rintro rfl
      cases a <;> first | exact absurd rfl hvar | cases ha

/-- **One sort key's bytes** tie where its values do, and compare as the values are to
    exactly if they are not cut off under `DESC`. -/
theorem order_part (rt : Runtime) (key : SortKey) (hty : ty.isSortable = true)
    (ha : a.fits ty = true) (hb : b.fits ty = true) :
    ∃ pa pb ord, key.part a = .ok pa ∧ key.part b = .ok pb ∧ key.compare rt a b = .ok ord
      ∧ (ord = .eq ↔ order pa pb = .eq)
      ∧ (ord = order pa pb ↔ (key.ascending = false → a.isTextOrArray = true → ∀ ka kb,
        a.encodeKey = .ok ka → b.encodeKey = .ok kb → Apart ka kb)) := by
  have hnull : ∀ {v : Value}, v.isNull = true → v = .null := by
    intro v hv
    cases v <;> first | rfl | cases hv
  have hlt : order (0 : UInt8) 1 = .lt := by decide
  have hgt : order (1 : UInt8) 0 = .gt := by decide
  -- the marker byte alone decides when one of the two is `NULL`
  rcases Bool.or_eq_true_iff.mp ha with hna | hta <;> rcases Bool.or_eq_true_iff.mp hb with
    hnb | htb
  · obtain rfl := hnull hna
    obtain rfl := hnull hnb
    refine ⟨_, _, .eq, part_null key, part_null key, rfl, ?_⟩
    simp [Value.isTextOrArray]
  · obtain rfl := hnull hna
    obtain ⟨kb, -, hkb, -⟩ := order_encodeKey_sortable rt hty htb htb
    refine ⟨_, _, if key.nullsFirst then .lt else .gt, part_null key, part_of_encodeKey hkb, ?_, ?_⟩
    · rw [SortKey.compare, isNull_of_hasType htb]
      rfl
    · rw [order_cons_cons]
      cases key.nullsFirst <;> simp [Value.isTextOrArray, hlt, hgt]
  · obtain rfl := hnull hnb
    obtain ⟨ka, -, hka, -⟩ := order_encodeKey_sortable rt hty hta hta
    refine ⟨_, _, if key.nullsFirst then .gt else .lt, part_of_encodeKey hka, part_null key, ?_, ?_⟩
    · rw [SortKey.compare, isNull_of_hasType hta]
      rfl
    · rw [order_cons_cons]
      cases key.nullsFirst <;> simp [Value.encodeKey, hlt, hgt]
  · obtain ⟨ka, kb, hka, hkb, hord⟩ := order_encodeKey_sortable rt hty hta htb
    have hcompare : key.compare rt a b
        = .ok (if key.ascending then order ka kb else (order ka kb).swap) := by
      rw [SortKey.compare, isNull_of_hasType hta, isNull_of_hasType htb]
      simp only [hord]
      rfl
    refine ⟨_, _, _, part_of_encodeKey hka, part_of_encodeKey hkb, hcompare, ?_⟩
    rw [order_cons_cons, order_self, hka, hkb]
    cases key.ascending with
    | true => simp
    | false =>
      have hinj : Function.Injective fun b : UInt8 => ~~~b := complement_strictAnti.injective
      constructor
      · show (order ka kb).swap = .eq ↔ order (ka.map _) (kb.map _) = .eq
        rw [order_swap, order_eq_eq, order_eq_eq, eq_comm, (List.map_injective_iff.mpr hinj).eq_iff]
      · have hiff := order_complemented hty hta htb hka hkb
        rw [eq_comm] at hiff
        refine hiff.trans ?_
        simp

end OneKey

/-! ### All keys -/

/-- One key in front: the bytes of the rest decide if it ties. -/
theorem order_key_cons {rt : Runtime} {key : SortKey} {keys : List SortKey} {s t : Tuple}
    {ps pt : List Bytes} {decides : Prop} (htype : key.OneType rt s t)
    (hps : sortKeyBytes rt s keys = .ok ps) (hpt : sortKeyBytes rt t keys = .ok pt)
    (hord : sqlOrder rt s t keys = .ok (order ps pt) ↔ decides) :
    ∃ ps pt, sortKeyBytes rt s (key :: keys) = .ok ps ∧ sortKeyBytes rt t (key :: keys) = .ok pt
      ∧ (sqlOrder rt s t (key :: keys) = .ok (order ps pt)
        ↔ key.NotCut rt s t ∧ (key.Ties rt s t → decides)) := by
  obtain ⟨ty, a, b, hty, heva, hevb, ha, hb⟩ := htype
  obtain ⟨pa, pb, ord, hpa, hpb, hcmp, htie, hcut⟩ := order_part rt key hty ha hb
  refine ⟨pa :: ps, pb :: pt, sortKeyBytes_cons heva hpa hps, sortKeyBytes_cons hevb hpb hpt, ?_⟩
  have hnotCut : key.NotCut rt s t ↔ ord = order pa pb := by
    rw [hcut]
    simp only [SortKey.NotCut, heva, hevb, Except.ok.injEq]
    exact ⟨fun h hdesc hvar ka kb => h hdesc a b ka kb rfl rfl hvar,
      fun h hdesc a b ka kb ha hb hvar => by
        subst ha hb
        exact h hdesc hvar ka kb⟩
  have hties : key.Ties rt s t ↔ ord = .eq := by
    simp [SortKey.Ties, heva, hevb, hcmp]
  have hstep : sqlOrder rt s t (key :: keys)
      = if ord = .eq then sqlOrder rt s t keys else .ok ord := by
    rw [sqlOrder, heva, hevb]
    show (key.compare rt a b >>= _) = _
    rw [hcmp]
    cases ord <;> rfl
  rw [hstep, hnotCut, hties, order_cons_cons]
  by_cases heq : ord = .eq
  · rw [if_pos heq, htie.mp heq]
    simpa [heq] using hord
  · have hne : order pa pb ≠ .eq := fun h => heq (htie.mpr h)
    have hfirst : (order pa pb).then (order ps pt) = order pa pb := by
      cases h : order pa pb <;> first | rfl | exact absurd h hne
    rw [hfirst, if_neg heq, Except.ok.injEq]
    exact ⟨fun h => ⟨h, fun htied => absurd htied heq⟩, And.left⟩

/-- **`ORDER BY` orders as asked** exactly if the key that decides is not a `DESC` key cut
    off: the bytes of two tuples exist, and compare as the first differing key says. -/
theorem order_by_orders (rt : Runtime) (keys : List SortKey) (s t : Tuple)
    (htype : ∀ key ∈ keys, key.OneType rt s t) :
    ∃ ps pt, sortKeyBytes rt s keys = .ok ps ∧ sortKeyBytes rt t keys = .ok pt
      ∧ (sqlOrder rt s t keys = .ok (order ps pt) ↔ DecidesUncut rt s t keys) := by
  induction keys with
  | nil => exact ⟨[], [], rfl, rfl, iff_of_true rfl trivial⟩
  | cons key keys ih =>
    obtain ⟨ps, pt, hps, hpt, hord⟩ := ih fun k hk => htype k (List.mem_cons_of_mem _ hk)
    exact order_key_cons (htype key List.mem_cons_self) hps hpt hord

/-- A number upwards, then a text downwards: `'a'` is cut off by `'ab'`, but the numbers
    differ. -/
theorem order_by_orders_first_key :
    ∃ ps pt, sortKeyBytes default [.int32 1, .text "a"] [⟨.column 0, true, false⟩,
      ⟨.column 1, false, true⟩]
        = .ok ps
      ∧ sortKeyBytes default [.int32 2, .text "ab"] [⟨.column 0, true, false⟩,
        ⟨.column 1, false, true⟩]
        = .ok pt
      ∧ order ps pt = .lt := by
  obtain ⟨ps, pt, hps, hpt, hord⟩ := order_by_orders default
    [⟨.column 0, true, false⟩, ⟨.column 1, false, true⟩] [.int32 1, .text "a"]
      [.int32 2, .text "ab"]
    (by
      intro key hkey
      fin_cases hkey
      · exact ⟨.int32, _, _, rfl, rfl, rfl, rfl, rfl⟩
      · exact ⟨.text, _, _, rfl, rfl, rfl, rfl, rfl⟩)
  have hlt : sqlOrder default [.int32 1, .text "a"] [.int32 2, .text "ab"]
      [⟨.column 0, true, false⟩, ⟨.column 1, false, true⟩] = .ok .lt := by
    decide
  have huncut : DecidesUncut default [.int32 1, .text "a"] [.int32 2, .text "ab"]
      [⟨.column 0, true, false⟩, ⟨.column 1, false, true⟩] := by
    refine ⟨fun hdesc => (by cases hdesc), ?_⟩
    rintro ⟨a, b, ha, hb, htie⟩
    cases ha
    cases hb
    cases htie
  exact ⟨ps, pt, hps, hpt, Except.ok.inj ((hord.mpr huncut).symm.trans hlt)⟩

/-- Under `DESC` the shorter of two texts comes first although it is the smaller one. -/
theorem desc_text_prefix_first :
    ∃ ps pt, sortKeyBytes default [.text "a"] [⟨.column 0, false, true⟩] = .ok ps
      ∧ sortKeyBytes default [.text "ab"] [⟨.column 0, false, true⟩] = .ok pt
      ∧ sqlOrder default [.text "a"] [.text "ab"] [⟨.column 0, false, true⟩] = .ok .gt
      ∧ order ps pt = .lt :=
  ⟨_, _, rfl, rfl, by decide, by decide⟩

end StrataDb.Sql
