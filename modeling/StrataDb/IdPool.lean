import Mathlib.Data.Finset.Basic

/-!
# Pools of ids

A pool hands out the id that was released last or, if none is, the next one that was never used.
`Keeps p ids`: none of the ids is handed out, unless it is released. `Issues p live`: the ids in
use are `live`, and no id is available twice.
-/

namespace StrataDb

structure IdPool where
  next : Nat
  free : List Nat

namespace IdPool

def allocate (p : IdPool) : Nat × IdPool :=
  match p.free.getLast? with
  | some id => (id, { p with free := p.free.dropLast })
  | none => (p.next, { p with next := p.next + 1 })

def release (p : IdPool) (id : Nat) : IdPool :=
  { p with free := p.free ++ [id] }

def reserve (p : IdPool) (id : Nat) : IdPool :=
  { p with next := max p.next (id + 1) }

theorem free_foldl_reserve (p : IdPool) (ids : List Nat) : (ids.foldl reserve p).free = p.free := by
  induction ids generalizing p with
  | nil => rfl
  | cons id ids ih => exact ih (p.reserve id)

theorem allocate_cases (p : IdPool) :
    (∃ front id, p.free = front ++ [id] ∧ p.allocate = (id, ⟨p.next, front⟩))
      ∨ p.free = [] ∧ p.allocate = (p.next, ⟨p.next + 1, []⟩) := by
  rcases List.eq_nil_or_concat' p.free with hnil | ⟨front, id, hfree⟩
  · exact Or.inr ⟨hnil, by rw [allocate, hnil, List.getLast?_nil]⟩
  · exact Or.inl ⟨front, id, hfree,
      by rw [allocate, hfree, List.getLast?_concat, List.dropLast_concat]⟩

/-! ### Ids that are kept -/

def Keeps (p : IdPool) (ids : Set Nat) : Prop :=
  ∀ id ∈ ids, id < p.next ∧ id ∉ p.free

section Keeps

variable {p : IdPool} {ids : Set Nat}

theorem Keeps.allocate (h : p.Keeps ids) : p.allocate.1 ∉ ids ∧ p.allocate.2.Keeps ids := by
  rcases p.allocate_cases with ⟨front, id, hfree, hrun⟩ | ⟨hfree, hrun⟩
  · rw [hrun]
    refine ⟨fun hmem => (h id hmem).2 (by simp [hfree]),
      fun i hi => ⟨(h i hi).1, fun hfront => (h i hi).2 ?_⟩⟩
    rw [hfree]
    exact List.mem_append_left _ hfront
  · rw [hrun]
    exact ⟨fun hmem => (h _ hmem).1.false,
      fun i hi => ⟨Nat.lt_succ_of_lt (h i hi).1, List.not_mem_nil⟩⟩

theorem Keeps.release (h : p.Keeps ids) (id : Nat) : (p.release id).Keeps (ids \ {id}) := by
  rintro i ⟨hi, hne⟩
  refine ⟨(h i hi).1, fun hfree => ?_⟩
  rcases List.mem_append.mp hfree with hfree | hfree
  · exact (h i hi).2 hfree
  · exact hne (List.mem_singleton.mp hfree)

theorem Keeps.reserve (h : p.Keeps ids) {id : Nat} (hfree : id ∉ p.free) :
    (p.reserve id).Keeps (insert id ids) := by
  rintro i (rfl | hi)
  · exact ⟨Nat.lt_of_lt_of_le (Nat.lt_succ_self i) (Nat.le_max_right ..), hfree⟩
  · exact ⟨Nat.lt_of_lt_of_le (h i hi).1 (Nat.le_max_left ..), (h i hi).2⟩

theorem Keeps.reserve_foldl (h : p.Keeps ids) {more : List Nat} (hfree : ∀ id ∈ more, id ∉ p.free) :
    (more.foldl IdPool.reserve p).Keeps (ids ∪ {id | id ∈ more}) := by
  induction more generalizing p ids with
  | nil =>
    rintro i (hi | hi)
    · exact h i hi
    · cases hi
  | cons id more ih =>
    have hstep := ih (h.reserve (hfree id (List.mem_cons_self ..)))
      (fun i hi => hfree i (List.mem_cons_of_mem _ hi))
    rintro i (hi | hi)
    · exact hstep i (Or.inl (Or.inr hi))
    · rcases List.mem_cons.mp hi with rfl | hi
      · exact hstep i (Or.inl (Or.inl rfl))
      · exact hstep i (Or.inr hi)

/-- An id that is released is handed out at some time, if only ids are asked for. -/
theorem exists_allocate_of_mem_free {id : Nat} (h : id ∈ p.free) :
    ∃ n, ((fun q : IdPool => q.allocate.2)^[n] p).allocate.1 = id := by
  obtain ⟨next, free⟩ := p
  induction free using List.reverseRecOn with
  | nil => cases h
  | append_singleton free last ih =>
    have hrun : IdPool.allocate ⟨next, free ++ [last]⟩ = (last, ⟨next, free⟩) := by
      rw [IdPool.allocate, List.getLast?_concat, List.dropLast_concat]
    rcases List.mem_append.mp h with hmem | hmem
    · obtain ⟨n, hn⟩ := ih hmem
      refine ⟨n + 1, ?_⟩
      rw [Function.iterate_succ_apply, hrun]
      exact hn
    · refine ⟨0, ?_⟩
      rw [Function.iterate_zero_apply, hrun]
      exact (List.mem_singleton.mp hmem).symm

end Keeps

/-! ### Ids in use -/

structure Issues (p : IdPool) (live : Finset Nat) : Prop where
  next : 0 < p.next
  live : ∀ id ∈ live, 0 < id ∧ id < p.next ∧ id ∉ p.free
  free : ∀ id ∈ p.free, 0 < id ∧ id < p.next
  nodup : p.free.Nodup

section Issues

variable {p : IdPool} {live : Finset Nat}

theorem Issues.allocate (h : p.Issues live) :
    p.allocate.1 ∉ live ∧ 0 < p.allocate.1 ∧ p.allocate.2.Issues (insert p.allocate.1 live) := by
  rcases p.allocate_cases with ⟨front, id, hfree, hrun⟩ | ⟨hfree, hrun⟩
  · rw [hrun]
    have hid : id ∈ p.free := by simp [hfree]
    have hfront (i : Nat) (hi : i ∈ front) : i ∈ p.free := by
      rw [hfree]
      exact List.mem_append_left _ hi
    have hnodup := h.nodup
    rw [hfree, ← List.concat_eq_append, List.nodup_concat] at hnodup
    refine ⟨fun hmem => (h.live id hmem).2.2 hid, (h.free id hid).1, h.next, fun i hi => ?_,
      fun i hi => h.free i (hfront i hi), hnodup.2⟩
    rcases Finset.mem_insert.mp hi with rfl | hi
    · exact ⟨(h.free i hid).1, (h.free i hid).2, hnodup.1⟩
    · exact ⟨(h.live i hi).1, (h.live i hi).2.1, fun hmem => (h.live i hi).2.2 (hfront i hmem)⟩
  · rw [hrun]
    refine ⟨fun hmem => (h.live _ hmem).2.1.false, h.next, Nat.succ_pos _, fun i hi => ?_,
      fun i hi => absurd hi List.not_mem_nil, List.nodup_nil⟩
    rcases Finset.mem_insert.mp hi with rfl | hi
    · exact ⟨h.next, Nat.lt_succ_self _, List.not_mem_nil⟩
    · exact ⟨(h.live i hi).1, Nat.lt_succ_of_lt (h.live i hi).2.1, List.not_mem_nil⟩

theorem Issues.release (h : p.Issues live) {id : Nat} (hid : id ∈ live) :
    (p.release id).Issues (live.erase id) where
  next := h.next
  live i hi := by
    obtain ⟨hne, hi⟩ := Finset.mem_erase.mp hi
    refine ⟨(h.live i hi).1, (h.live i hi).2.1, fun hmem => ?_⟩
    rcases List.mem_append.mp hmem with hmem | hmem
    · exact (h.live i hi).2.2 hmem
    · exact hne (List.mem_singleton.mp hmem)
  free i hi := by
    rcases List.mem_append.mp hi with hi | hi
    · exact h.free i hi
    · rw [List.mem_singleton.mp hi]
      exact ⟨(h.live id hid).1, (h.live id hid).2.1⟩
  nodup := by
    rw [IdPool.release, ← List.concat_eq_append]
    exact h.nodup.concat (h.live id hid).2.2

end Issues

end IdPool

end StrataDb
