import Mathlib.Data.List.TakeWhile
import Mathlib.Tactic

/-!
# The pairs of two lists that join

`pairs joins f L R` lists `f l r` for every `l` and `r` that join, left-major. An element that
joins nothing can be dropped, and groups that join each other and nothing else can be split off.
An outer join adds the elements without a partner; it can be computed from either side, and class
by class of any partitioning that what joins respects.
-/

namespace StrataDb.EquiJoin

open List (filter_append filter_congr flatMap_append flatMap_congr mem_filter nil_append)

variable {α β γ : Type} {joins : α → β → Bool} {f : α → β → γ}

def pairs (joins : α → β → Bool) (f : α → β → γ) (L : List α) (R : List β) : List γ :=
  L.flatMap fun l => (R.filter (joins l)).map (f l)

@[simp] theorem pairs_nil_left (R : List β) : pairs joins f [] R = [] := rfl

@[simp] theorem pairs_nil_right (L : List α) : pairs joins f L [] = [] := by
  simp [pairs]

variable {L : List α} {R : List β}

theorem pairs_append_left (L₁ L₂ : List α) (R : List β) :
    pairs joins f (L₁ ++ L₂) R = pairs joins f L₁ R ++ pairs joins f L₂ R :=
  flatMap_append

theorem pairs_perm {L' : List α} {R' : List β} (hL : L.Perm L') (hR : R.Perm R') :
    (pairs joins f L R).Perm (pairs joins f L' R') := by
  have hmid : (pairs joins f L R).Perm (pairs joins f L' R) := hL.flatMap_right _
  exact hmid.trans (List.Perm.flatMap_left _ fun l _ => (hR.filter _).map _)

/-! ### Outer joins -/

def alone (joins : α → β → Bool) (L : List α) (R : List β) : List α :=
  L.filter fun l => !R.any (joins l)

/-- The pairs that join, and what is left of the elements without a partner. -/
def outerJoin (joins : α → β → Bool) (f : α → β → γ) (padL : α → List γ) (padR : β → List γ)
    (L : List α) (R : List β) : List γ :=
  pairs joins f L R ++
    ((alone joins L R).flatMap padL ++ (alone (fun r l => joins l r) R L).flatMap padR)

section Outer

variable {padL : α → List γ} {padR : β → List γ} {L L₁ L₂ : List α} {R R₁ R₂ : List β}

theorem alone_append : alone joins (L₁ ++ L₂) R = alone joins L₁ R ++ alone joins L₂ R :=
  filter_append ..

theorem alone_congr (h : ∀ l ∈ L, R₁.any (joins l) = R₂.any (joins l)) :
    alone joins L R₁ = alone joins L R₂ :=
  filter_congr fun l hl => by rw [h l hl]

theorem alone_perm (hL : L₁.Perm L₂) (hR : R₁.Perm R₂) :
    (alone joins L₁ R₁).Perm (alone joins L₂ R₂) := by
  rw [alone_congr fun l _ => hR.any_eq]
  exact hL.filter _

theorem outerJoin_perm (hL : L₁.Perm L₂) (hR : R₁.Perm R₂) :
    (outerJoin joins f padL padR L₁ R₁).Perm (outerJoin joins f padL padR L₂ R₂) :=
  (pairs_perm hL hR).append
    (((alone_perm hL hR).flatMap_right _).append ((alone_perm hR hL).flatMap_right _))

theorem pairs_apart (h : ∀ l ∈ L, ∀ r ∈ R, joins l r = false) : pairs joins f L R = [] := by
  simpa [pairs] using h

theorem alone_apart (h : ∀ l ∈ L, ∀ r ∈ R, joins l r = false) : alone joins L R = L := by
  simpa [alone] using h

theorem alone_append_right (h : ∀ l ∈ L, ∀ r ∈ R₂, joins l r = false) :
    alone joins L (R₁ ++ R₂) = alone joins L R₁ ∧ alone joins L (R₂ ++ R₁) = alone joins L R₁ := by
  have hnone : ∀ l ∈ L, R₂.any (joins l) = false := fun l hl => by simpa using h l hl
  refine ⟨alone_congr fun l hl => ?_, alone_congr fun l hl => ?_⟩
  · rw [List.any_append, hnone l hl, Bool.or_false]
  · rw [List.any_append, hnone l hl, Bool.false_or]

theorem outerJoin_append (h₁ : ∀ l ∈ L₁, ∀ r ∈ R₂, joins l r = false)
    (h₂ : ∀ l ∈ L₂, ∀ r ∈ R₁, joins l r = false) :
    (outerJoin joins f padL padR (L₁ ++ L₂) (R₁ ++ R₂)).Perm
      (outerJoin joins f padL padR L₁ R₁ ++ outerJoin joins f padL padR L₂ R₂) := by
  have hpairs : pairs joins f (L₁ ++ L₂) (R₁ ++ R₂) = pairs joins f L₁ R₁ ++ pairs joins f L₂
    R₂ := by
    rw [pairs, flatMap_append]
    congr 1
    · apply flatMap_congr
      intro l hl
      have hnone : R₂.filter (joins l) = [] := by simpa using h₁ l hl
      rw [filter_append, hnone, List.append_nil]
    · apply flatMap_congr
      intro l hl
      have hnone : R₁.filter (joins l) = [] := by simpa using h₂ l hl
      rw [filter_append, hnone, nil_append]
  rw [outerJoin, hpairs, alone_append, alone_append, (alone_append_right h₁).1,
    (alone_append_right h₂).2, (alone_append_right fun r hr l hl => h₂ l hl r hr).1,
    (alone_append_right fun r hr l hl => h₁ l hl r hr).2, flatMap_append, flatMap_append, outerJoin,
    outerJoin]
  simp only [← Multiset.coe_eq_coe, ← Multiset.coe_add]
  abel

theorem outerJoin_apart (h : ∀ l ∈ L, ∀ r ∈ R, joins l r = false) :
    outerJoin joins f padL padR L R = L.flatMap padL ++ R.flatMap padR := by
  rw [outerJoin, pairs_apart h, alone_apart h, alone_apart fun r hr l hl => h l hl r hr, nil_append]

theorem pairs_cons_perm (r : β) :
    (pairs joins f L (r :: R)).Perm
      ((L.filter (fun l => joins l r)).map (fun l => f l r) ++ pairs joins f L R) := by
  induction L with
  | nil => rfl
  | cons l L ih =>
    have hcons : ∀ R, pairs joins f (l :: L) R = (R.filter (joins l)).map (f l) ++ pairs joins
      f L R :=
      fun R => rfl
    rw [hcons, hcons]
    refine (ih.append_left _).trans ?_
    cases hj : joins l r <;>
      simp only [List.filter_cons, hj, Bool.false_eq_true, if_true, if_false, List.map_cons,
        ← Multiset.coe_eq_coe, ← Multiset.coe_add, ← Multiset.cons_coe,
        ← Multiset.singleton_add] <;>
      abel

theorem pairs_swap (joins : α → β → Bool) (f : α → β → γ) (L : List α) (R : List β) :
    (pairs (fun r l => joins l r) (fun r l => f l r) R L).Perm (pairs joins f L R) := by
  induction R with
  | nil => rw [pairs_nil_left, pairs_nil_right]
  | cons r R ih => exact (ih.append_left _).trans (pairs_cons_perm r).symm

theorem outerJoin_swap (joins : α → β → Bool) (f : α → β → γ) (padL : α → List γ)
    (padR : β → List γ) (L : List α) (R : List β) :
    (outerJoin (fun r l => joins l r) (fun r l => f l r) padR padL R L).Perm
      (outerJoin joins f padL padR L R) :=
  (pairs_swap joins f L R).append List.perm_append_comm

def joinOne (joins : α → β → Bool) (f : α → β → γ) (padL : α → List γ) (R : List β) (l : α) :
    List γ :=
  (R.filter (joins l)).map (f l) ++ if R.any (joins l) then [] else padL l

/-- **The loop over one side** gives its pairs and what it keeps without a partner. -/
theorem flatMap_joinOne (joins : α → β → Bool) (f : α → β → γ) (padL : α → List γ) (L : List α)
    (R : List β) :
    (L.flatMap (joinOne joins f padL R)).Perm
    (pairs joins f L R ++ (alone joins L R).flatMap padL) := by
  induction L with
  | nil => rfl
  | cons l L ih =>
    have hpairs : pairs joins f (l :: L) R = (R.filter (joins l)).map (f l) ++ pairs joins f L
      R := rfl
    have halone : (alone joins (l :: L) R).flatMap padL
        = (if R.any (joins l) then [] else padL l) ++ (alone joins L R).flatMap padL := by
      rw [alone, List.filter_cons]
      cases R.any (joins l) <;> rfl
    rw [List.flatMap_cons, joinOne, hpairs, halone]
    refine (ih.append_left _).trans ?_
    simp only [← Multiset.coe_eq_coe, ← Multiset.coe_add]
    abel

/-- **Classes are joined one by one**, if what joins is in one class. -/
theorem outerJoin_classes {g : α → Nat} {g' : β → Nat}
    (h : ∀ l ∈ L, ∀ r ∈ R, joins l r = true → g l = g' r) {n : Nat} (hL : ∀ l ∈ L, g l < n)
    (hR : ∀ r ∈ R, g' r < n) :
    ((List.range n).flatMap fun i => outerJoin joins f padL padR (L.filter (g · = i))
      (R.filter (g' · = i))).Perm (outerJoin joins f padL padR L R) := by
  induction n generalizing L R with
  | zero =>
    obtain rfl : L = [] :=
      List.eq_nil_iff_forall_not_mem.mpr fun l hl => absurd (hL l hl) (Nat.not_lt_zero _)
    obtain rfl : R = [] :=
      List.eq_nil_iff_forall_not_mem.mpr fun r hr => absurd (hR r hr) (Nat.not_lt_zero _)
    rfl
  | succ n ih =>
    -- the last class is split off both sides
    have hsplit : ∀ {δ : Type} {k : δ → Nat} {xs : List δ}, (∀ x ∈ xs, k x < n + 1) →
        (xs.filter (k · < n) ++ xs.filter (k · = n)).Perm xs := by
      intro δ k xs hxs
      have hrest : xs.filter (k · = n) = xs.filter (fun x => !decide (k x < n)) :=
        filter_congr fun x hx => by
          have := hxs x hx
          rw [← decide_not, decide_eq_decide]
          omega
      rw [hrest]
      exact List.filter_append_perm _ _
    have hclass : ∀ {δ : Type} {k : δ → Nat} {xs : List δ} {i : Nat}, i < n →
        (xs.filter (k · < n)).filter (k · = i) = xs.filter (k · = i) := by
      intro δ k xs i hi
      rw [List.filter_filter]
      apply filter_congr
      intro x _
      rw [← Bool.decide_and, decide_eq_decide]
      exact ⟨fun hx => hx.1, fun hx => ⟨hx, hx ▸ hi⟩⟩
    have hlow := @ih (L.filter (g · < n)) (R.filter (g' · < n))
      (fun l hl r hr => h l (List.mem_of_mem_filter hl) r (List.mem_of_mem_filter hr))
      (fun l hl => by simpa using (mem_filter.mp hl).2)
      (fun r hr => by simpa using (mem_filter.mp hr).2)
    have hsame : ((List.range n).flatMap fun i => outerJoin joins f padL padR
          ((L.filter (g · < n)).filter (g · = i)) ((R.filter (g' · < n)).filter (g' · = i)))
        = (List.range n).flatMap fun i => outerJoin joins f padL padR (L.filter (g · = i))
          (R.filter (g' · = i)) :=
      flatMap_congr fun i hi => by rw [hclass (List.mem_range.mp hi), hclass (List.mem_range.mp hi)]
    rw [hsame] at hlow
    rw [List.range_succ, flatMap_append, List.flatMap_singleton]
    refine (hlow.append_right _).trans ((outerJoin_append ?_ ?_).symm.trans
      (outerJoin_perm (hsplit hL) (hsplit hR)))
    · intro l hl r hr
      rw [mem_filter, decide_eq_true_iff] at hl hr
      by_contra hj
      have := h l hl.1 r hr.1 (Bool.eq_true_of_not_eq_false hj)
      omega
    · intro l hl r hr
      rw [mem_filter, decide_eq_true_iff] at hl hr
      by_contra hj
      have := h l hl.1 r hr.1 (Bool.eq_true_of_not_eq_false hj)
      omega

end Outer

section Groups

variable {O : Type} [LinearOrder O] {key : α → O} {k : O}

/-- Behind the group of the least key all keys are larger. -/
theorem lt_of_mem_dropWhile (hsorted : L.Pairwise (fun a b => key a ≤ key b))
    (hle : ∀ l ∈ L, k ≤ key l) : ∀ l ∈ L.dropWhile (fun l => key l = k), k < key l := by
  induction L with
  | nil => simp
  | cons a L ih =>
    by_cases ha : key a = k
    · rw [List.dropWhile_cons_of_pos (by simpa using ha)]
      exact ih hsorted.tail fun l hl => hle l (List.mem_cons_of_mem _ hl)
    · rw [List.dropWhile_cons_of_neg (by simpa using ha)]
      have hlt : k < key a := lt_of_le_of_ne (hle a List.mem_cons_self) (Ne.symm ha)
      intro l hl
      rcases List.mem_cons.mp hl with rfl | hl
      · exact hlt
      · exact hlt.trans_le (List.rel_of_pairwise_cons hsorted hl)

theorem eq_of_mem_takeWhile : ∀ l ∈ L.takeWhile (fun l => key l = k), key l = k := by
  intro l hl
  simpa using List.mem_takeWhile_imp hl

end Groups

end StrataDb.EquiJoin
