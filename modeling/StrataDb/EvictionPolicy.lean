import Mathlib.Data.List.AList
import Mathlib.Data.List.MinMax
import Mathlib.Data.Prod.Lex
import Mathlib.Tactic

/-!
# Eviction policies (`crates/filesystem/src/cache/policies.rs`)

`Lru`, `LruK` and `Lfu` rank what they track and take the coldest; `Clock` sweeps a ring. All a
cache relies on is `LawfulPolicy`. A hash map is the association list of its entries: the ranks of
two entries never tie, so their order does not matter.
-/

namespace StrataDb.Filesystem

open AList (mem_erase mem_insert)

class EvictionPolicy (P : Type) (Id : outParam Type) where
  recordAccess : P → Id → P
  evictCandidate : P → (Id → Bool) → Option Id × P
  remove : P → Id → P

export EvictionPolicy (recordAccess evictCandidate remove)

class LawfulPolicy (P : Type) {Id : outParam Type} [EvictionPolicy P Id] where
  Tracked : P → Id → Prop
  tracked_recordAccess : ∀ p id x, Tracked (recordAccess p id) x ↔ x = id ∨ Tracked p x
  tracked_remove : ∀ p id x, Tracked (remove p id) x ↔ x ≠ id ∧ Tracked p x
  tracked_evictCandidate : ∀ p evictable x,
    Tracked (evictCandidate p evictable).2 x ↔ Tracked p x
  evictCandidate_some : ∀ p evictable x, (evictCandidate p evictable).1 = some x →
    Tracked p x ∧ evictable x = true
  evictCandidate_none : ∀ p evictable, (evictCandidate p evictable).1 = none →
    ∀ x, Tracked p x → evictable x = false

/-! ### Ranking policies -/

section Ranking

variable {Id β γ : Type} [LinearOrder γ]

/-- The evictable entry of the smallest rank: `filter`, then `min_by_key`. -/
def coldest (entries : List (Sigma fun _ : Id => β)) (evictable : Id → Bool) (rank : β → γ) :
    Option Id :=
  ((entries.filter (fun e => evictable e.1)).argmin (fun e => rank e.2)).map (·.1)

variable {entries : List (Sigma fun _ : Id => β)} {evictable : Id → Bool} {rank : β → γ}

theorem mem_of_coldest {id : Id} (h : coldest entries evictable rank = some id) :
    id ∈ entries.keys ∧ evictable id = true := by
  obtain ⟨e, he, rfl⟩ := Option.map_eq_some_iff.mp h
  obtain ⟨hmem, hevict⟩ := List.mem_filter.mp (List.argmin_mem he)
  exact ⟨List.mem_keys_of_mem hmem, hevict⟩

theorem le_of_coldest {id : Id} (h : coldest entries evictable rank = some id) :
    ∃ b, ⟨id, b⟩ ∈ entries ∧ ∀ e ∈ entries, evictable e.1 = true → rank b ≤ rank e.2 := by
  obtain ⟨e, he, rfl⟩ := Option.map_eq_some_iff.mp h
  refine ⟨e.2, (List.mem_filter.mp (List.argmin_mem he)).1, fun x hx hevict => ?_⟩
  have hmem : x ∈ entries.filter (fun e => evictable e.1) := List.mem_filter.mpr ⟨hx, hevict⟩
  exact List.le_of_mem_argmin (f := fun e => rank e.2) hmem he

theorem coldest_eq_none (h : coldest entries evictable rank = none) {id : Id}
    (hid : id ∈ entries.keys) : evictable id = false := by
  rw [coldest, Option.map_eq_none_iff, List.argmin_eq_none, List.filter_eq_nil_iff] at h
  obtain ⟨b, hb⟩ := List.exists_of_mem_keys hid
  simpa using h _ hb

end Ranking

section Policies

variable {Id : Type} [DecidableEq Id]

/-- Least recently used: the tick of the last access. -/
structure Lru (Id : Type) where
  clock : Nat := 0
  last : AList (fun _ : Id => Nat) := ∅

instance : EvictionPolicy (Lru Id) Id where
  recordAccess p id := { clock := p.clock + 1, last := p.last.insert id (p.clock + 1) }
  evictCandidate p evictable := (coldest p.last.entries evictable id, p)
  remove p id := { p with last := p.last.erase id }

instance : LawfulPolicy (Lru Id) where
  Tracked p id := id ∈ p.last
  tracked_recordAccess _ _ _ := mem_insert _
  tracked_remove _ _ _ := mem_erase
  tracked_evictCandidate _ _ _ := Iff.rfl
  evictCandidate_some _ _ _ h := mem_of_coldest h
  evictCandidate_none _ _ h _ hx := coldest_eq_none h hx

/-- LRU-K: the ticks of the last `k` accesses, newest first. -/
structure LruK (Id : Type) where
  k : Nat
  clock : Nat := 0
  hist : AList (fun _ : Id => List Nat) := ∅
  k_pos : 1 ≤ k

/-- The tick of the `k`-th most recent access, zero if there were fewer, and then the
    tick of the last one. -/
def LruK.rank (p : LruK Id) (ticks : List Nat) : Nat ×ₗ Nat :=
  toLex (if ticks.length < p.k then 0 else ticks.getD (p.k - 1) 0, ticks.headD 0)

instance : EvictionPolicy (LruK Id) Id where
  recordAccess p id :=
    { p with
      clock := p.clock + 1
      hist := p.hist.insert id (((p.clock + 1) :: (p.hist.lookup id).getD []).take p.k) }
  evictCandidate p evictable := (coldest p.hist.entries evictable p.rank, p)
  remove p id := { p with hist := p.hist.erase id }

instance : LawfulPolicy (LruK Id) where
  Tracked p id := id ∈ p.hist
  tracked_recordAccess _ _ _ := mem_insert _
  tracked_remove _ _ _ := mem_erase
  tracked_evictCandidate _ _ _ := Iff.rfl
  evictCandidate_some _ _ _ h := mem_of_coldest h
  evictCandidate_none _ _ h _ hx := coldest_eq_none h hx

/-- Least frequently used: the number of accesses, and the tick of the last one. -/
structure Lfu (Id : Type) where
  clock : Nat := 0
  freq : AList (fun _ : Id => Nat × Nat) := ∅

instance : EvictionPolicy (Lfu Id) Id where
  recordAccess p id :=
    { clock := p.clock + 1
      freq := p.freq.insert id (((p.freq.lookup id).getD (0, 0)).1 + 1, p.clock + 1) }
  evictCandidate p evictable := (coldest p.freq.entries evictable toLex, p)
  remove p id := { p with freq := p.freq.erase id }

instance : LawfulPolicy (Lfu Id) where
  Tracked p id := id ∈ p.freq
  tracked_recordAccess _ _ _ := mem_insert _
  tracked_remove _ _ _ := mem_erase
  tracked_evictCandidate _ _ _ := Iff.rfl
  evictCandidate_some _ _ _ h := mem_of_coldest h
  evictCandidate_none _ _ h _ hx := coldest_eq_none h hx

/-! ### CLOCK -/

/-- A ring of the tracked ids, each with its reference bit. -/
structure Clock (Id : Type) [DecidableEq Id] where
  ring : List Id := []
  referenced : AList (fun _ : Id => Bool) := ∅
  mem_ring : ∀ id, id ∈ ring ↔ id ∈ referenced := by simp

def Clock.bit (c : Clock Id) (id : Id) : Bool := (c.referenced.lookup id).getD false

def Clock.touch (c : Clock Id) (id : Id) : Clock Id where
  ring := if id ∈ c.referenced then c.ring else c.ring ++ [id]
  referenced := c.referenced.insert id true
  mem_ring x := by
    rw [mem_insert]
    split_ifs with h
    · rw [c.mem_ring]
      exact ⟨Or.inr, fun hx => hx.elim (fun heq => heq ▸ h) (fun hx => hx)⟩
    · rw [List.mem_append, List.mem_singleton, c.mem_ring, or_comm]

/-- Move the hand on: the front of the ring goes to its end. -/
def Clock.turn (c : Clock Id) : Clock Id where
  ring := c.ring.rotate 1
  referenced := c.referenced
  mem_ring id := by rw [List.mem_rotate, c.mem_ring]

def Clock.unset (c : Clock Id) (id : Id) (h : id ∈ c.ring) : Clock Id where
  ring := c.ring
  referenced := c.referenced.insert id false
  mem_ring x := by
    rw [mem_insert, c.mem_ring]
    exact ⟨Or.inr, fun hx => hx.elim (fun heq => heq ▸ (c.mem_ring id).mp h) (fun hx => hx)⟩

def Clock.drop (c : Clock Id) (id : Id) : Clock Id where
  ring := c.ring.filter (fun x => decide (x ≠ id))
  referenced := c.referenced.erase id
  mem_ring x := by rw [List.mem_filter, mem_erase, c.mem_ring, decide_eq_true_eq, and_comm]

variable {c : Clock Id}

theorem Clock.mem_turn {id : Id} (h : id ∈ c.ring) : id ∈ c.turn.ring :=
  List.mem_rotate.mpr h

def Clock.sweep (evictable : Id → Bool) : Nat → Clock Id → Option Id × Clock Id
  | 0, c => (none, c)
  | steps + 1, c =>
    match hhead : c.ring.head? with
    | none => (none, c)
    | some id =>
      if !evictable id then sweep evictable steps c.turn
      else if c.bit id then
        sweep evictable steps (c.turn.unset id (mem_turn (List.mem_of_head? hhead)))
      else (some id, c.turn)

instance : EvictionPolicy (Clock Id) Id where
  recordAccess := Clock.touch
  evictCandidate c evictable := Clock.sweep evictable (c.ring.length * 2 + 1) c
  remove := Clock.drop

@[simp] theorem Clock.mem_turn_ring (c : Clock Id) (id : Id) : id ∈ c.turn.ring ↔ id ∈ c.ring :=
  List.mem_rotate

theorem Clock.mem_sweep (evictable : Id → Bool) (steps : Nat) (c : Clock Id) (id : Id) :
    id ∈ (Clock.sweep evictable steps c).2.ring ↔ id ∈ c.ring := by
  fun_induction Clock.sweep evictable steps c with
  | case1 c => rfl
  | case2 steps c hhead => rfl
  | case3 steps c x hhead hskip ih => rw [ih, mem_turn_ring]
  | case4 steps c x hhead hskip hbit ih => rw [ih]; exact mem_turn_ring c id
  | case5 steps c x hhead hskip hbit => exact mem_turn_ring c id

theorem Clock.sweep_some {evictable : Id → Bool} {steps : Nat} {id : Id}
    (h : (Clock.sweep evictable steps c).1 = some id) : id ∈ c.ring ∧ evictable id = true := by
  fun_induction Clock.sweep evictable steps c with
  | case1 c => cases h
  | case2 steps c hhead => cases h
  | case3 steps c x hhead hskip ih =>
    obtain ⟨hmem, hevict⟩ := ih h
    exact ⟨(mem_turn_ring c id).mp hmem, hevict⟩
  | case4 steps c x hhead hskip hbit ih =>
    obtain ⟨hmem, hevict⟩ := ih h
    exact ⟨(mem_turn_ring c id).mp hmem, hevict⟩
  | case5 steps c x hhead hskip hbit =>
    obtain rfl := Option.some.inj h
    exact ⟨List.mem_of_head? hhead, by simpa using hskip⟩

theorem Clock.ring_of_head {x : Id} (h : c.ring.head? = some x) :
    ∃ rest, c.ring = x :: rest ∧ c.turn.ring = rest ++ [x] := by
  obtain ⟨rest, hrest⟩ := List.head?_eq_some_iff.mp h
  refine ⟨rest, hrest, ?_⟩
  show c.ring.rotate 1 = rest ++ [x]
  simp [hrest]

theorem Clock.bit_unset (c : Clock Id) {x : Id} (h : x ∈ c.ring) (id : Id) :
    (c.unset x h).bit id = if id = x then false else c.bit id := by
  unfold bit unset
  split_ifs with heq
  · rw [heq, AList.lookup_insert]
    rfl
  · rw [AList.lookup_insert_ne heq]

/-- **The hand finds a victim in time.**  An evictable id at place `i` of the ring is
    reached after `i + 1` steps, and its second chance costs one more round. -/
theorem Clock.sweep_isSome {evictable : Id → Bool} {steps : Nat} {id : Id} {i : Nat}
    (hevict : evictable id = true) (hi : c.ring[i]? = some id)
    (hsteps : (if c.bit id then c.ring.length else 0) + i + 1 ≤ steps) :
    ((Clock.sweep evictable steps c).1).isSome = true := by
  fun_induction Clock.sweep evictable steps c generalizing i with
  | case1 c => omega
  | case2 steps c hhead =>
    rw [List.head?_eq_none_iff] at hhead
    simp [hhead] at hi
  | case3 steps c x hhead hskip ih =>
    obtain ⟨rest, hring, hturn⟩ := ring_of_head hhead
    have hlength : c.turn.ring.length = c.ring.length := List.length_rotate _ _
    rw [hring] at hi
    cases i with
    | zero =>
      obtain rfl : x = id := by simpa using hi
      simp [hevict] at hskip
    | succ i =>
      have hrest : rest[i]? = some id := hi
      have hlt := (List.getElem?_eq_some_iff.mp hrest).1
      refine ih (i := i) (by rw [hturn, List.getElem?_append_left hlt, hrest]) ?_
      rw [hlength]
      show (if c.bit id then c.ring.length else 0) + i + 1 ≤ steps
      omega
  | case4 steps c x hhead hskip hbit ih =>
    obtain ⟨rest, hring, hturn⟩ := ring_of_head hhead
    have hlength : c.ring.length = rest.length + 1 := by simp [hring]
    by_cases heq : id = x
    · -- the second chance is used up: back at the end of the ring, without its bit
      subst heq
      rw [if_pos hbit] at hsteps
      refine ih (i := rest.length) ?_ ?_
      · show c.turn.ring[rest.length]? = some id
        simp [hturn]
      · rw [bit_unset, if_pos rfl]
        simp only [Bool.false_eq_true, if_false]
        omega
    · rw [hring] at hi
      cases i with
      | zero => exact absurd (by simpa using hi : x = id).symm heq
      | succ i =>
        have hrest : rest[i]? = some id := hi
        have hlt := (List.getElem?_eq_some_iff.mp hrest).1
        refine ih (i := i) ?_ ?_
        · show c.turn.ring[i]? = some id
          rw [hturn, List.getElem?_append_left hlt, hrest]
        · rw [bit_unset, if_neg heq]
          have hturned : (c.turn.unset x (mem_turn (List.mem_of_head? hhead))).ring.length =
              c.ring.length := List.length_rotate _ _
          rw [hturned]
          show (if c.bit id then c.ring.length else 0) + i + 1 ≤ steps
          omega
  | case5 steps c x hhead hskip hbit => rfl

instance : LawfulPolicy (Clock Id) where
  Tracked c id := id ∈ c.ring
  tracked_recordAccess c id x := by
    rw [Clock.mem_ring, Clock.mem_ring]
    exact mem_insert _
  tracked_remove c id x := by
    rw [Clock.mem_ring, Clock.mem_ring]
    exact mem_erase
  tracked_evictCandidate c evictable x := Clock.mem_sweep evictable _ c x
  evictCandidate_some c evictable x h := Clock.sweep_some h
  evictCandidate_none c evictable h x hx := by
    by_contra hevict
    obtain ⟨i, hlt, hi⟩ := List.getElem_of_mem hx
    have hsteps : (if c.bit x then c.ring.length else 0) + i + 1 ≤ c.ring.length * 2 + 1 := by
      split_ifs <;> omega
    have hsome := Clock.sweep_isSome (Bool.of_not_eq_false hevict)
      (by rw [List.getElem?_eq_getElem hlt, hi]) hsteps
    exact absurd h (Option.ne_none_iff_isSome.mpr hsome)

end Policies

end StrataDb.Filesystem
