import StrataDb.LexOrder

/-!
# The strings under a prefix, as a range

The strings that begin with `p` form an interval of the lexicographic order. It ends below the
string made from `p` by dropping the greatest letters off its end and taking the next letter for
the one before.
-/

namespace StrataDb.PrefixRange

open LexOrder

variable {α : Type} [LinearOrder α] {p k : List α}

/-! ### A common prefix -/

theorem cons_le_cons {x y : α} {a b : List α} : x :: a ≤ y :: b ↔ x < y ∨ x = y ∧ a ≤ b := by
  rw [← not_lt, List.cons_lt_cons_iff, not_or, not_lt, not_and, le_iff_lt_or_eq]
  constructor
  · rintro ⟨hxy | rfl, hrest⟩
    · exact Or.inl hxy
    · exact Or.inr ⟨rfl, not_lt.mp (hrest rfl)⟩
  · rintro (hxy | ⟨rfl, hle⟩)
    · exact ⟨Or.inl hxy, fun h => absurd hxy (h ▸ lt_irrefl _)⟩
    · exact ⟨Or.inr rfl, fun _ => not_lt.mpr hle⟩

theorem order_append_left (p a b : List α) : order (p ++ a) (p ++ b) = order a b := by
  rw [order_append rfl, order_self]
  rfl

@[simp] theorem append_lt_append (p a b : List α) : p ++ a < p ++ b ↔ a < b := by
  rw [← cmp_eq_lt_iff, ← cmp_eq_lt_iff]
  exact Eq.congr_left (order_append_left p a b)

@[simp] theorem append_le_append (p a b : List α) : p ++ a ≤ p ++ b ↔ a ≤ b := by
  rw [← not_lt, ← not_lt, append_lt_append]

theorem le_append (p a : List α) : p ≤ p ++ a := by
  simpa using (append_le_append p [] a).mpr (not_lt.mp (List.not_lt_nil a))

theorem prefix_of_between {a b : List α} (hle : p ++ a ≤ k) (hge : k ≤ p ++ b) : p <+: k := by
  induction p generalizing k with
  | nil => exact List.nil_prefix
  | cons x p ih =>
    cases k with
    | nil => exact absurd hle (not_le.mpr (List.nil_lt_cons x (p ++ a)))
    | cons y k =>
      rw [List.cons_append, cons_le_cons] at hle hge
      rcases hle with hxy | ⟨rfl, hle⟩
      · rcases hge with hyx | ⟨rfl, -⟩
        · exact absurd hyx hxy.asymm
        · exact absurd hxy (lt_irrefl _)
      · rcases hge with hlt | ⟨-, hge⟩
        · exact absurd hlt (lt_irrefl _)
        · exact List.cons_prefix_cons.mpr ⟨rfl, ih hle hge⟩

/-! ### The end of the range -/

theorem prefix_of_replicate_le {top : α} (htop : ∀ a, a ≤ top) {m : Nat}
    (h : List.replicate m top ≤ k) : List.replicate m top <+: k := by
  induction m generalizing k with
  | zero => exact List.nil_prefix
  | succ m ih =>
    rw [List.replicate_succ] at h ⊢
    cases k with
    | nil => exact absurd h (not_le.mpr (List.nil_lt_cons _ _))
    | cons y k =>
      rcases cons_le_cons.mp h with hlt | ⟨rfl, hle⟩
      · exact absurd hlt (not_lt.mpr (htop y))
      · exact List.cons_prefix_cons.mpr ⟨rfl, ih hle⟩

/-- The strings from `q b ⊤ … ⊤` up to `q c`, with no letter between `b` and `c`, are those
    with that prefix. -/
theorem prefix_iff_of_cover {top b c : α} (htop : ∀ a, a ≤ top) (hbc : b < c)
    (hcover : ∀ a, a < c → a ≤ b) (q : List α) (m : Nat) :
    q ++ b :: List.replicate m top <+: k ↔ q ++ b :: List.replicate m top ≤ k ∧ k < q ++ [c] := by
  constructor
  · rintro ⟨s, rfl⟩
    refine ⟨le_append _ s, ?_⟩
    rw [List.append_assoc, append_lt_append, List.cons_append]
    exact List.cons_lt_cons_iff.mpr (Or.inl hbc)
  · rintro ⟨hle, hlt⟩
    obtain ⟨r, rfl⟩ := prefix_of_between hle hlt.le
    rw [append_le_append] at hle
    rw [append_lt_append] at hlt
    rw [List.prefix_append_right_inj]
    cases r with
    | nil => exact absurd hle (not_le.mpr (List.nil_lt_cons _ _))
    | cons x r =>
      have hxc : x < c := by
        rcases List.cons_lt_cons_iff.mp hlt with h | ⟨-, h⟩
        · exact h
        · exact absurd h (List.not_lt_nil r)
      rcases cons_le_cons.mp hle with hbx | ⟨rfl, hrest⟩
      · exact absurd hbx (not_lt.mpr (hcover x hxc))
      · exact List.cons_prefix_cons.mpr ⟨rfl, prefix_of_replicate_le htop hrest⟩

end StrataDb.PrefixRange
