import StrataDb.Merge

/-!
# Sorting by a key, stably

The keys ascend and the items of every single key stand in the order they came in. There is only
one such rearrangement, so merging sorted pieces in their order gives it too
(`merge_eq_stableSort`).
-/

namespace StrataDb.StableSort

variable {α κ : Type} [LinearOrder κ] {key : α → κ} {xs ys : List α}

def stableSort (key : α → κ) (xs : List α) : List α :=
  xs.insertionSort (fun a b => key a ≤ key b)

def Ascends (key : α → κ) (xs : List α) : Prop := xs.Pairwise (fun a b => key a ≤ key b)

theorem stableSort_perm (key : α → κ) (xs : List α) : (stableSort key xs).Perm xs :=
  List.perm_insertionSort _ xs

theorem ascends_stableSort (key : α → κ) (xs : List α) : Ascends key (stableSort key xs) :=
  have : Std.Total (fun a b => key a ≤ key b) := ⟨fun a b => le_total (key a) (key b)⟩
  have : IsTrans α (fun a b => key a ≤ key b) := ⟨fun _ _ _ => le_trans⟩
  List.pairwise_insertionSort _ xs

theorem filter_stableSort (key : α → κ) (xs : List α) (k : κ) :
    (stableSort key xs).filter (fun x => key x = k) = xs.filter (fun x => key x = k) := by
  have hpairwise : (xs.filter fun x => key x = k).Pairwise (fun a b => key a ≤ key b) := by
    refine List.pairwise_iff_forall_sublist.mpr fun {a b} hab => ?_
    have hmem : ∀ c ∈ [a, b], key c = k := fun c hc => by
      simpa using (List.mem_filter.mp (hab.subset hc)).2
    rw [hmem a (by simp), hmem b (by simp)]
  have hsub :=
    (List.sublist_insertionSort hpairwise List.filter_sublist).filter (fun x => key x = k)
  rw [List.filter_filter, show (fun x => decide (key x = k) && decide (key x = k))
    = fun x => decide (key x = k) from funext fun x => Bool.and_self _] at hsub
  exact (hsub.eq_of_length ((stableSort_perm key xs).filter _).length_eq.symm).symm

theorem eq_of_sorted (hx : Ascends key xs) (hy : Ascends key ys)
    (h : ∀ k, xs.filter (fun x => key x = k) = ys.filter (fun y => key y = k)) : xs = ys := by
  induction xs generalizing ys with
  | nil =>
    cases ys with
    | nil => rfl
    | cons y ys => simpa using h (key y)
  | cons x xs ih =>
    cases ys with
    | nil => simpa using h (key x)
    | cons y ys =>
      have hmemy : x ∈ y :: ys := by
        have hx : x ∈ (x :: xs).filter (fun z => key z = key x) := by simp
        rw [h] at hx
        exact List.mem_of_mem_filter hx
      have hmemx : y ∈ x :: xs := by
        have hy : y ∈ (y :: ys).filter (fun z => key z = key y) := by simp
        rw [← h] at hy
        exact List.mem_of_mem_filter hy
      -- both heads have the least key, so they are the first items of that key
      have hkey : key x = key y := by
        refine le_antisymm ?_ ?_
        · rcases List.mem_cons.mp hmemx with rfl | hmem
          · exact le_rfl
          · exact List.rel_of_pairwise_cons hx hmem
        · rcases List.mem_cons.mp hmemy with rfl | hmem
          · exact le_rfl
          · exact List.rel_of_pairwise_cons hy hmem
      have hhead := h (key x)
      rw [List.filter_cons_of_pos (by simp), List.filter_cons_of_pos (by simp [hkey])] at hhead
      obtain ⟨rfl, -⟩ := List.cons.inj hhead
      refine congrArg (x :: ·) (ih hx.tail hy.tail fun k => ?_)
      have hk := h k
      by_cases hxk : key x = k
      · rw [List.filter_cons_of_pos (by simpa using hxk),
          List.filter_cons_of_pos (by simpa using hxk)] at hk
        exact (List.cons.inj hk).2
      · rwa [List.filter_cons_of_neg (by simpa using hxk),
          List.filter_cons_of_neg (by simpa using hxk)] at hk

theorem eq_stableSort (hy : Ascends key ys)
    (h : ∀ k, ys.filter (fun y => key y = k) = xs.filter (fun x => key x = k)) :
    ys = stableSort key xs :=
  eq_of_sorted hy (ascends_stableSort key xs) fun k => (h k).trans (filter_stableSort key xs k).symm

theorem filter_flatten_map_stableSort (xss : List (List α)) (k : κ) :
    (xss.map (stableSort key)).flatten.filter (fun x => key x = k)
      = xss.flatten.filter (fun x => key x = k) := by
  induction xss with
  | nil => rfl
  | cons xs xss ih =>
    rw [List.map_cons, List.flatten_cons, List.flatten_cons, List.filter_append, List.filter_append,
      ih, filter_stableSort]

theorem length_flatten_map_stableSort (key : α → κ) (xss : List (List α)) :
    (xss.map (stableSort key)).flatten.length = xss.flatten.length := by
  have hpiece : List.length ∘ stableSort key = List.length :=
    funext fun xs => (stableSort_perm key xs).length_eq
  rw [List.length_flatten, List.length_flatten, List.map_map, hpiece]

/-- **Sorting pieces and merging them is sorting the whole.** -/
theorem merge_eq_stableSort {cmp : α → α → Ordering} (hcmp : ∀ a b, cmp a b = .lt ↔ key a < key b)
    (xss : List (List α)) {fuel : Nat} (hfuel : xss.flatten.length ≤ fuel) :
    Merge.mergeLoop cmp fuel (xss.map (stableSort key)) = stableSort key xss.flatten := by
  have hsorted : Merge.Sorted key (xss.map (stableSort key)) := by
    intro s hs
    obtain ⟨xs, -, rfl⟩ := List.mem_map.mp hs
    exact ascends_stableSort key xs
  have hlength := length_flatten_map_stableSort key xss
  refine eq_stableSort (Merge.mergeLoop_spec hcmp hsorted (hlength ▸ hfuel)).2 ?_
  intro k
  rw [Merge.filter_mergeLoop hcmp hsorted (hlength ▸ hfuel), filter_flatten_map_stableSort]

end StrataDb.StableSort
