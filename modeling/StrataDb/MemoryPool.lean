import StrataDb.Runs

/-!
# The memory pool under concurrent calls (`crates/filesystem/src/memory.rs`)

`allocate` adds its size to the counter and takes it back if the sum is over the cap; in between a
call is a request in flight. The steps are atomic, so every behaviour is an interleaving. The
slabs never exceed the cap, and a call fits exactly if it fits beside all requests
(`MemoryPool.allocate_iff`).
-/

namespace StrataDb.Filesystem

open Runs

/-- A call of `allocate` between its addition and its return: the size, and the counter from
    before. -/
structure Request (T : Type) where
  thread : T
  size : Nat
  prev : Nat
deriving DecidableEq

structure MemoryPool (T : Type) where
  cap : Nat
  inUse : Nat := 0
  requests : List (Request T) := []
  slabs : List Nat := []

inductive PoolEvent (T : Type) where
  | called (thread : T) (size : Nat)
  | returned (thread : T) (ok : Bool)
  | dropped (size : Nat)
deriving DecidableEq

namespace MemoryPool

variable {T : Type} [DecidableEq T]

/-- A cap of zero means none. -/
def accepts (s : MemoryPool T) (r : Request T) : Bool := s.cap = 0 ∨ r.prev + r.size ≤ s.cap

def live (s : MemoryPool T) : Nat := s.slabs.sum

def reserved (s : MemoryPool T) : Nat := (s.requests.map Request.size).sum

inductive Step : MemoryPool T → PoolEvent T → MemoryPool T → Prop
  | add {s : MemoryPool T} {thread : T} {size : Nat} : (∀ r ∈ s.requests, r.thread ≠ thread) →
      Step s (.called thread size)
        { s with inUse := s.inUse + size, requests := ⟨thread, size, s.inUse⟩ :: s.requests }
  | accept {s : MemoryPool T} {r : Request T} : r ∈ s.requests → s.accepts r = true →
      Step s (.returned r.thread true)
        { s with requests := s.requests.erase r, slabs := r.size :: s.slabs }
  | reject {s : MemoryPool T} {r : Request T} : r ∈ s.requests → s.accepts r = false →
      Step s (.returned r.thread false)
        { s with inUse := s.inUse - r.size, requests := s.requests.erase r }
  | drop {s : MemoryPool T} {size : Nat} : size ∈ s.slabs →
      Step s (.dropped size) { s with inUse := s.inUse - size, slabs := s.slabs.erase size }

/-- What the counter stands for; slabs and accepted requests are within the cap. -/
structure Inv (s : MemoryPool T) : Prop where
  inUse : s.inUse = s.live + s.reserved
  bounded : s.cap ≠ 0 → s.live + ((s.requests.filter s.accepts).map Request.size).sum ≤ s.cap
  threads : (s.requests.map Request.thread).Nodup

theorem reserved_erase {s : MemoryPool T} {r : Request T} (h : r ∈ s.requests) :
    s.reserved = r.size + ((s.requests.erase r).map Request.size).sum :=
  ((List.perm_cons_erase h).map Request.size).sum_eq

theorem Step.inv {s s' : MemoryPool T} {e : PoolEvent T} (hstep : Step s e s') (h : s.Inv) :
    s'.Inv ∧ s'.cap = s.cap := by
  have hinUse := h.inUse
  cases hstep with
  | @add thread size hidle =>
    refine ⟨⟨?_, ?_, ?_⟩, rfl⟩
    · simp only [live, reserved, List.map_cons, List.sum_cons] at hinUse ⊢
      omega
    · intro hcap
      have hbounded := h.bounded hcap
      have hsub : ((s.requests.filter s.accepts).map Request.size).sum ≤ s.reserved :=
        (List.filter_sublist.map Request.size).sum_le_sum (by simp)
      show s.live + (((⟨thread, size, s.inUse⟩ :: s.requests).filter s.accepts).map
        Request.size).sum ≤ s.cap
      rw [List.filter_cons]
      split_ifs with haccepts
      · -- an accepted request read a counter that left room for it
        rw [accepts, decide_eq_true_eq, or_iff_right hcap] at haccepts
        rw [List.map_cons, List.sum_cons]
        dsimp only at haccepts ⊢
        omega
      · exact hbounded
    · refine List.nodup_cons.mpr ⟨?_, h.threads⟩
      intro hmem
      obtain ⟨r, hr, hthread⟩ := List.mem_map.mp hmem
      exact hidle r hr hthread
  | @accept r hr haccepts =>
    have hreserved := reserved_erase hr
    refine ⟨⟨?_, ?_, h.threads.sublist (List.erase_sublist.map _)⟩, rfl⟩
    · simp only [live, List.sum_cons] at hinUse ⊢
      show s.inUse = r.size + s.slabs.sum + ((s.requests.erase r).map Request.size).sum
      omega
    · intro hcap
      have hperm := (((List.perm_cons_erase hr).filter s.accepts).map Request.size).sum_eq
      rw [List.filter_cons_of_pos haccepts, List.map_cons, List.sum_cons] at hperm
      have hbounded := h.bounded hcap
      show (r.size :: s.slabs).sum + (((s.requests.erase r).filter s.accepts).map Request.size).sum
        ≤ s.cap
      rw [List.sum_cons]
      rw [live] at hbounded
      omega
  | @reject r hr haccepts =>
    have hreserved := reserved_erase hr
    refine ⟨⟨?_, ?_, h.threads.sublist (List.erase_sublist.map _)⟩, rfl⟩
    · show s.inUse - r.size = s.live + ((s.requests.erase r).map Request.size).sum
      omega
    · intro hcap
      have hsub : (((s.requests.erase r).filter s.accepts).map Request.size).sum ≤
          ((s.requests.filter s.accepts).map Request.size).sum :=
        ((List.erase_sublist.filter s.accepts).map Request.size).sum_le_sum (by simp)
      exact (Nat.add_le_add_left hsub _).trans (h.bounded hcap)
  | @drop size hsize =>
    have hslabs : s.live = size + (s.slabs.erase size).sum := (List.perm_cons_erase hsize).sum_eq
    refine ⟨⟨?_, ?_, h.threads⟩, rfl⟩
    · show s.inUse - size = (s.slabs.erase size).sum + s.reserved
      omega
    · intro hcap
      have hbounded := h.bounded hcap
      show (s.slabs.erase size).sum + ((s.requests.filter s.accepts).map Request.size).sum ≤ s.cap
      omega

theorem inv_run {cap : Nat} {events : List (PoolEvent T)} {s : MemoryPool T}
    (h : Run Step ⟨cap, 0, [], []⟩ events s) : s.Inv ∧ s.cap = cap := by
  refine h.history (P := fun _ s => s.Inv ∧ s.cap = cap)
    ⟨⟨rfl, fun _ => Nat.zero_le _, List.nodup_nil⟩, rfl⟩ ?_
  rintro _ s e s' ⟨hinv, hcap⟩ hstep
  exact ⟨(hstep.inv hinv).1, (hstep.inv hinv).2.trans hcap⟩

theorem mem_requests_run {s s' : MemoryPool T} {events : List (PoolEvent T)}
    (h : Run Step s events s') {r : Request T} (hr : r ∈ s.requests)
    (hpending : ∀ ok, .returned r.thread ok ∉ events) : r ∈ s'.requests := by
  induction h with
  | nil => exact hr
  | @snoc events t u e _ hstep ih =>
    have hmem := ih fun ok hok => hpending ok (List.mem_append_left _ hok)
    have hlast (ok : Bool) : e ≠ .returned r.thread ok := fun he =>
      hpending ok (List.mem_append_right _ (List.mem_singleton.mpr he.symm))
    have hother {r' : Request T} {ok : Bool} (he : PoolEvent.returned r'.thread ok ≠ .returned
      r.thread ok) :
        r ∈ t.requests.erase r' := (List.mem_erase_of_ne fun heq => he (by rw [heq])).mpr hmem
    cases hstep with
    | add => exact List.mem_cons_of_mem _ hmem
    | accept => exact hother (hlast true)
    | reject => exact hother (hlast false)
    | drop => exact hmem

theorem Inv.returned {s s' : MemoryPool T} (h : s.Inv) {r : Request T} (hr : r ∈ s.requests)
    {ok : Bool} (hstep : Step s (.returned r.thread ok) s') : ok = s.accepts r := by
  have hsame {r' : Request T} (hr' : r' ∈ s.requests) (hthread : r'.thread = r.thread) : r' = r :=
    List.inj_on_of_nodup_map h.threads hr' hr hthread
  generalize he : PoolEvent.returned r.thread ok = e at hstep
  cases hstep with
  | add => cases he
  | drop => cases he
  | @accept r' hr' haccepts =>
    obtain ⟨hthread, rfl⟩ := PoolEvent.returned.inj he
    rw [← hsame hr' hthread.symm, haccepts]
  | @reject r' hr' haccepts =>
    obtain ⟨hthread, rfl⟩ := PoolEvent.returned.inj he
    rw [← hsame hr' hthread.symm, haccepts]

/-- **A call of `allocate` succeeds exactly if it fits beside the slabs and the requests in
    flight** when it adds its size, whether these succeed or not; and whatever threads do, live
    slabs stay within the cap. -/
theorem allocate_iff (cap : Nat) :
    (∀ (events : List (PoolEvent T)) (s : MemoryPool T), Run Step ⟨cap, 0, [], []⟩ events s →
      cap ≠ 0 →
        s.live ≤ cap) ∧
      ∀ (before after : List (PoolEvent T)) (s s₁ s₂ s₃ : MemoryPool T) (t : T) (size : Nat)
        (ok : Bool),
        Run Step ⟨cap, 0, [], []⟩ before s → Step s (.called t size) s₁ → Run Step s₁ after s₂ →
        (∀ ok, .returned t ok ∉ after) → Step s₂ (.returned t ok) s₃ →
        (ok = true ↔ cap = 0 ∨ s.live + s.reserved + size ≤ cap) := by
  constructor
  · intro events s hrun hcap
    obtain ⟨hinv, rfl⟩ := inv_run hrun
    exact (Nat.le_add_right _ _).trans (hinv.bounded hcap)
  · intro before after s s₁ s₂ s₃ t size ok hbefore hadd hafter hpending hreturn
    obtain ⟨hinv, hcap⟩ := inv_run hbefore
    have hprev := hinv.inUse
    have hinv₂ : s₂.Inv ∧ s₂.cap = s.cap := by
      refine hafter.history (P := fun _ u => u.Inv ∧ u.cap = s.cap) (hadd.inv hinv) ?_
      rintro _ u e u' ⟨hu, hcap⟩ hstep
      exact ⟨(hstep.inv hu).1, (hstep.inv hu).2.trans hcap⟩
    cases hadd with
    | add =>
      have hmem := mem_requests_run hafter (r := ⟨t, size, s.inUse⟩) List.mem_cons_self hpending
      rw [hinv₂.1.returned hmem hreturn, accepts, decide_eq_true_eq, hinv₂.2, hcap]
      dsimp only
      rw [hprev]

/-- One thread: a slab of 60 of 100 bytes. -/
theorem allocate_iff_alone :
    ∃ (s₁ s₂ : MemoryPool Unit) (ok : Bool), Step ⟨100, 0, [], []⟩ (.called () 60) s₁ ∧
      Step s₁ (.returned () ok) s₂ ∧ ok = true ∧ s₂.live ≤ 100 := by
  have hadd : Step (⟨100, 0, [], []⟩ : MemoryPool Unit) (.called () 60)
    ⟨100, 60, [⟨(), 60, 0⟩], []⟩ :=
    .add (by simp)
  have hreturn : Step (⟨100, 60, [⟨(), 60, 0⟩], []⟩ : MemoryPool Unit) (.returned () true)
      ⟨100, 60, [], [60]⟩ := .accept (r := ⟨(), 60, 0⟩) List.mem_cons_self rfl
  have hok := (allocate_iff 100).2 [] [] _ _ _ _ () 60 true .nil hadd .nil (by simp) hreturn
  have hlive := (allocate_iff 100).1 _ _ (.snoc (.snoc .nil hadd) hreturn) (by decide)
  exact ⟨_, _, _, hadd, hreturn, hok.mpr (Or.inr (by decide)), hlive⟩

/-- **A call that fits is rejected.**  While a request for 200 of 100 bytes is about to be taken
    back, one for 50 fails, though there is no slab at any time. -/
theorem allocate_rejects_fitting :
    ∃ s₁ s₂ s₃ : MemoryPool Bool, Step ⟨100, 0, [], []⟩ (.called true 200) s₁
      ∧ Step s₁ (.called false 50) s₂ ∧
      Step s₂ (.returned false false) s₃ ∧ s₁.live + 50 ≤ 100 ∧ s₂.live + 50 ≤ 100
        ∧ s₃.live + 50 ≤ 100 := by
  refine ⟨⟨100, 200, [⟨true, 200, 0⟩], []⟩, ⟨100, 250, [⟨false, 50, 200⟩, ⟨true, 200, 0⟩], []⟩,
    ⟨100, 200, [⟨true, 200, 0⟩], []⟩, .add (by simp), .add (by simp), ?_, by decide, by decide,
      by decide⟩
  exact .reject (r := ⟨false, 50, 200⟩) List.mem_cons_self rfl

end MemoryPool

end StrataDb.Filesystem
