import Mathlib.Tactic

/-!
# Reading and overwriting slices of a list

A slice that was just written is read back (`slice_overwrite_self`), and writing leaves every
slice beside it alone (`slice_overwrite_of_disjoint`).
-/

namespace StrataDb.Slices

variable {α : Type}

def slice (xs : List α) (off len : Nat) : List α := (xs.drop off).take len

/-- `xs` with `ys` in place of what stood at `off`; past the end it grows. -/
def overwrite (xs : List α) (off : Nat) (ys : List α) : List α :=
  xs.take off ++ (ys ++ xs.drop (off + ys.length))

theorem overwrite_end (xs ys : List α) : overwrite xs xs.length ys = xs ++ ys := by
  simp [overwrite]

variable {xs ys : List α} {off : Nat}

theorem length_overwrite (h : off + ys.length ≤ xs.length) :
    (overwrite xs off ys).length = xs.length := by
  simp only [overwrite, List.length_append, List.length_take, List.length_drop]
  omega

theorem getElem?_slice (xs : List α) (off len i : Nat) :
    (slice xs off len)[i]? = if i < len then xs[off + i]? else none := by
  simp [slice, List.getElem?_take, List.getElem?_drop]

theorem getElem?_overwrite (h : off ≤ xs.length) (ys : List α) (i : Nat) :
    (overwrite xs off ys)[i]? = if off ≤ i ∧ i < off + ys.length then ys[i - off]? else xs[i]? := by
  have hlength : (xs.take off).length = off := by rw [List.length_take]; omega
  unfold overwrite
  rcases Nat.lt_or_ge i off with hi | hi
  · rw [List.getElem?_append_left (by omega), List.getElem?_take_of_lt hi, if_neg (by omega)]
  · rw [List.getElem?_append_right (by omega), hlength]
    rcases Nat.lt_or_ge i (off + ys.length) with hi' | hi'
    · rw [List.getElem?_append_left (by omega), if_pos ⟨hi, hi'⟩]
    · rw [List.getElem?_append_right (by omega), List.getElem?_drop, if_neg (by omega)]
      congr 1
      omega

variable {len : Nat}

theorem slice_congr
    (h : ∀ i, off ≤ i → i < off + len → xs[i]? = ys[i]?) : slice xs off len = slice ys off len := by
  apply List.ext_getElem?
  intro i
  rw [getElem?_slice, getElem?_slice]
  split_ifs with hi
  · exact h _ (by omega) (by omega)
  · rfl

theorem slice_append_left (h : off + len ≤ xs.length) (ys : List α) :
    slice (xs ++ ys) off len = slice xs off len := by
  apply slice_congr
  intro i _ hi
  rw [List.getElem?_append_left (by omega)]

theorem slice_append_right (xs ys : List α) (off len : Nat) :
    slice (xs ++ ys) (xs.length + off) len = slice ys off len := by
  rw [slice, List.drop_append, List.drop_eq_nil_of_le (by omega), Nat.add_sub_cancel_left,
    List.nil_append, slice]

theorem slice_between {zs : List α} (hoff : xs.length = off) (hlen : ys.length = len) :
    slice (xs ++ (ys ++ zs)) off len = ys := by
  rw [slice, List.drop_left' hoff, List.take_left' hlen]

theorem slice_flatMap {β : Type} {f : β → List α} {w : Nat} (hf : ∀ x, (f x).length = w)
    {xs : List β} {i : Nat} {x : β} (hx : xs[i]? = some x) :
    slice (xs.flatMap f) (w * i) w = f x := by
  induction xs generalizing i with
  | nil => cases hx
  | cons y ys ih =>
    rw [List.flatMap_cons]
    cases i with
    | zero =>
      obtain rfl := Option.some.inj hx
      rw [Nat.mul_zero, slice_append_left (by rw [hf, Nat.zero_add])]
      exact List.take_of_length_le (hf y).le
    | succ i =>
      have hoff : w * (i + 1) = (f y).length + w * i := by rw [hf, Nat.mul_succ, Nat.add_comm]
      rw [hoff, slice_append_right, ih hx]

theorem slice_overwrite_self (h : off ≤ xs.length) :
    slice (overwrite xs off ys) off ys.length = ys := by
  apply List.ext_getElem?
  intro i
  rw [getElem?_slice, getElem?_overwrite h]
  split_ifs with hi hi'
  · rw [Nat.add_sub_cancel_left]
  · omega
  · exact (List.getElem?_eq_none (by omega)).symm

theorem slice_overwrite_inside {i : Nat} (h : off ≤ xs.length)
    (hi : i + len ≤ ys.length) : slice (overwrite xs off ys) (off + i) len = slice ys i len := by
  apply List.ext_getElem?
  intro k
  rw [getElem?_slice, getElem?_slice, getElem?_overwrite h]
  split_ifs with hk hin
  · congr 1
    omega
  · omega
  · rfl

theorem slice_overwrite_of_disjoint (h : off ≤ xs.length)
    {off' : Nat} (hdisjoint : off' + len ≤ off ∨ off + ys.length ≤ off') :
    slice (overwrite xs off ys) off' len = slice xs off' len := by
  apply slice_congr
  intro i hi hi'
  rw [getElem?_overwrite h, if_neg (by omega)]

end StrataDb.Slices
