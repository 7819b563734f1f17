import Mathlib.Tactic

/-!
# Versioned maps

The history of a map is a log of entries that set a key or, with `none`, remove it. The state at
version `n` is that of the first `n` entries (`apply`); a store that keeps versions apart finds
the `Newest` it may see.
-/

namespace StrataDb.VersionedMap

variable {K V : Type} [DecidableEq K]

def apply (log : List (K × Option V)) : K → Option V :=
  log.foldl (fun m w => Function.update m w.1 w.2) (fun _ => none)

/-- Entry `i` is the last one for key `k`, and sets it to `o`. -/
def Newest (log : List (K × Option V)) (k : K) (i : Nat) (o : Option V) : Prop :=
  log[i]? = some (k, o) ∧ ∀ j w, i < j → log[j]? = some w → w.1 ≠ k

theorem apply_snoc (log : List (K × Option V)) (w : K × Option V) :
    apply (log ++ [w]) = Function.update (apply log) w.1 w.2 := by
  simp [apply, List.foldl_append]

theorem apply_rel {V' : Type} {R : Option V → Option V' → Prop} (hnone : R none none)
    {log : List (K × Option V)} {log' : List (K × Option V')}
    (h : List.Forall₂ (fun w w' => w.1 = w'.1 ∧ R w.2 w'.2) log log') (k : K) :
    R (apply log k) (apply log' k) := by
  have key (m : K → Option V) (m' : K → Option V') (hm : ∀ k, R (m k) (m' k)) :
      R (log.foldl (fun m w => Function.update m w.1 w.2) m k)
        (log'.foldl (fun m w => Function.update m w.1 w.2) m' k) := by
    induction h generalizing m m' with
    | nil => exact hm k
    | @cons w w' _ _ hw _ ih =>
      refine ih _ _ ?_
      intro k
      obtain ⟨heq, hrel⟩ := hw
      dsimp only
      rw [Function.update_apply, Function.update_apply, heq]
      split_ifs
      · exact hrel
      · exact hm k
  exact key _ _ fun _ => hnone

theorem apply_of_absent {log : List (K × Option V)} {k : K} (h : ∀ w ∈ log, w.1 ≠ k) :
    apply log k = none := by
  induction log using List.reverseRecOn with
  | nil => rfl
  | append_singleton log w ih =>
    have hw : k ≠ w.1 := Ne.symm (h w (by simp))
    rw [apply_snoc, Function.update_of_ne hw]
    exact ih (fun x hx => h x (List.mem_append_left _ hx))

theorem apply_of_newest {log : List (K × Option V)} {k : K} {i : Nat} {o : Option V}
    (h : Newest log k i o) : apply log k = o := by
  induction log using List.reverseRecOn with
  | nil => simp [Newest] at h
  | append_singleton log w ih =>
    obtain ⟨hi, hafter⟩ := h
    rw [apply_snoc]
    by_cases hlast : i = log.length
    · -- the newest entry is the last one of the log
      have hw : w = (k, o) := by simpa [hlast] using hi
      simp [hw]
    · have hlt : i < log.length := by
        have := (List.getElem?_eq_some_iff.mp hi).1
        simp only [List.length_append, List.length_singleton] at this
        omega
      have hw : w.1 ≠ k := hafter log.length w hlt (by simp)
      rw [Function.update_of_ne (Ne.symm hw)]
      refine ih ⟨by rwa [List.getElem?_append_left hlt] at hi, ?_⟩
      intro j x hij hx
      have hj : j < log.length := (List.getElem?_eq_some_iff.mp hx).1
      exact hafter j x hij (by rw [List.getElem?_append_left hj]; exact hx)

theorem newest_or_absent (log : List (K × Option V)) (k : K) :
    (∃ i o, Newest log k i o) ∨ ∀ w ∈ log, w.1 ≠ k := by
  induction log using List.reverseRecOn with
  | nil => exact Or.inr (by simp)
  | append_singleton log w ih =>
    by_cases hw : w.1 = k
    · refine Or.inl ⟨log.length, w.2, by simp [← hw], ?_⟩
      intro j x hj hx
      have := (List.getElem?_eq_some_iff.mp hx).1
      simp only [List.length_append, List.length_singleton] at this
      omega
    · rcases ih with ⟨i, o, hi, hafter⟩ | habsent
      · have hlt : i < log.length := (List.getElem?_eq_some_iff.mp hi).1
        refine Or.inl ⟨i, o, by rwa [List.getElem?_append_left hlt], ?_⟩
        intro j x hij hx
        by_cases hj : j < log.length
        · rw [List.getElem?_append_left hj] at hx
          exact hafter j x hij hx
        · have hlen := (List.getElem?_eq_some_iff.mp hx).1
          simp only [List.length_append, List.length_singleton] at hlen
          obtain rfl : j = log.length := by omega
          obtain rfl : w = x := by simpa using hx
          exact hw
      · refine Or.inr (fun x hx => ?_)
        rcases List.mem_append.mp hx with hx | hx
        · exact habsent x hx
        · rwa [List.mem_singleton.mp hx]

/-- **Reading a version.**  A key is bound exactly when its newest entry binds it. -/
theorem apply_eq_some_iff (log : List (K × Option V)) (k : K) (v : V) :
    apply log k = some v ↔ ∃ i, Newest log k i (some v) := by
  constructor
  · intro h
    rcases newest_or_absent log k with ⟨i, o, hnew⟩ | habsent
    · obtain rfl : o = some v := by rw [← apply_of_newest hnew, h]
      exact ⟨i, hnew⟩
    · rw [apply_of_absent habsent] at h
      cases h
  · rintro ⟨i, hnew⟩
    exact apply_of_newest hnew

end StrataDb.VersionedMap
