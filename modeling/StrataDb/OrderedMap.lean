import Mathlib.Tactic
import Mathlib.Order.Basic

/-!
# Key ranges and ordered maps

`OrderedMap` is a balanced search tree as seen from outside: its entries in ascending order of a
rank, no rank twice. Inserting keeps the key that was there first. Asking a non-empty map for a
range whose ends are the wrong way around is a fault of the caller (`none`).
-/

namespace StrataDb.OrderedMap

/-! ### Ranges -/

inductive Bound (α : Type) where
  | included (a : α)
  | excluded (a : α)
  | unbounded
deriving DecidableEq, Repr

section Bounds

variable {α : Type} [LinearOrder α]

def afterStart : Bound α → α → Bool
  | .included s, a => decide (s ≤ a)
  | .excluded s, a => decide (s < a)
  | .unbounded, _ => true

def beforeEnd : Bound α → α → Bool
  | .included e, a => decide (a ≤ e)
  | .excluded e, a => decide (a < e)
  | .unbounded, _ => true

def inBounds (start stop : Bound α) (a : α) : Bool := afterStart start a && beforeEnd stop a

def reversed : Bound α → Bound α → Bool
  | .included s, .included e => decide (e < s)
  | .included s, .excluded e => decide (e < s)
  | .excluded s, .included e => decide (e < s)
  | .excluded s, .excluded e => decide (e ≤ s)
  | _, _ => false

theorem afterStart_mono {start : Bound α} {a b : α} (h : afterStart start a) (hab : a ≤ b) :
    afterStart start b := by
  cases start with
  | included s => simp only [afterStart, decide_eq_true_eq] at h ⊢; exact h.trans hab
  | excluded s => simp only [afterStart, decide_eq_true_eq] at h ⊢; exact h.trans_le hab
  | unbounded => rfl

theorem beforeEnd_anti {stop : Bound α} {a b : α} (h : beforeEnd stop b) (hab : a ≤ b) :
    beforeEnd stop a := by
  cases stop with
  | included s => simp only [beforeEnd, decide_eq_true_eq] at h ⊢; exact hab.trans h
  | excluded s => simp only [beforeEnd, decide_eq_true_eq] at h ⊢; exact hab.trans_lt h
  | unbounded => rfl

def spanMeets (start stop : Bound α) (min max : α) : Bool :=
  afterStart start max && beforeEnd stop min

theorem spanMeets_of_inBounds {start stop : Bound α} {min max a : α} (h : inBounds start stop a)
    (hmin : min ≤ a) (hmax : a ≤ max) : spanMeets start stop min max = true := by
  simp only [inBounds, Bool.and_eq_true] at h
  simp only [spanMeets, Bool.and_eq_true]
  exact ⟨afterStart_mono h.1 hmax, beforeEnd_anti h.2 hmin⟩

end Bounds

/-! ### Ordered maps -/

section Entries

variable {K V O : Type} [LinearOrder O] (rank : K → O)

def insertEntry (k : K) (v : V) : List (K × V) → List (K × V)
  | [] => [(k, v)]
  | (k', v') :: rest =>
    if rank k < rank k' then (k, v) :: (k', v') :: rest
    else if rank k = rank k' then (k', v) :: rest
    else (k', v') :: insertEntry k v rest

def Ascending (entries : List (K × V)) : Prop :=
  entries.Pairwise (fun a b => rank a.1 < rank b.1)

variable {rank}

theorem insertEntry_ne_nil (k : K) (v : V) (entries : List (K × V)) :
    insertEntry rank k v entries ≠ [] := by
  cases entries with
  | nil => exact List.cons_ne_nil _ _
  | cons x rest =>
    rw [insertEntry]
    split_ifs <;> exact List.cons_ne_nil _ _

theorem rank_mem_insertEntry {k : K} {v : V} {entries : List (K × V)} {x : K × V}
    (h : x ∈ insertEntry rank k v entries) : rank x.1 = rank k ∨ x ∈ entries := by
  induction entries with
  | nil =>
    rw [insertEntry, List.mem_singleton] at h
    exact Or.inl (by rw [h])
  | cons y rest ih =>
    rw [insertEntry] at h
    split_ifs at h with hlt heq
    · rcases List.mem_cons.mp h with rfl | h
      · exact Or.inl rfl
      · exact Or.inr h
    · rcases List.mem_cons.mp h with rfl | h
      · exact Or.inl heq.symm
      · exact Or.inr (List.mem_cons_of_mem _ h)
    · rcases List.mem_cons.mp h with rfl | h
      · exact Or.inr List.mem_cons_self
      · exact (ih h).imp id (List.mem_cons_of_mem _)

theorem Ascending.insertEntry {entries : List (K × V)} (h : Ascending rank entries) (k : K)
    (v : V) :
    Ascending rank (insertEntry rank k v entries) := by
  induction entries with
  | nil => exact List.pairwise_singleton _ _
  | cons y rest ih =>
    obtain ⟨hy, hrest⟩ := List.pairwise_cons.mp h
    rw [OrderedMap.insertEntry]
    split_ifs with hlt heq
    · refine List.pairwise_cons.mpr ⟨?_, h⟩
      intro z hz
      rcases List.mem_cons.mp hz with rfl | hz
      · exact hlt
      · exact hlt.trans (hy z hz)
    · exact List.pairwise_cons.mpr ⟨hy, hrest⟩
    · refine List.pairwise_cons.mpr ⟨?_, ih hrest⟩
      intro z hz
      rcases rank_mem_insertEntry hz with hz | hz
      · rw [hz]
        exact lt_of_le_of_ne (not_lt.mp hlt) (Ne.symm heq)
      · exact hy z hz

theorem mem_insertEntry_of_fresh {k : K} {v : V} {entries : List (K × V)}
    (h : ∀ x ∈ entries, rank x.1 ≠ rank k) (x : K × V) :
    x ∈ insertEntry rank k v entries ↔ x = (k, v) ∨ x ∈ entries := by
  induction entries with
  | nil => simp [insertEntry]
  | cons y rest ih =>
    have hy : rank k ≠ rank y.1 := Ne.symm (h y List.mem_cons_self)
    have hrest := ih (fun z hz => h z (List.mem_cons_of_mem _ hz))
    rw [insertEntry]
    split_ifs with hlt
    · simp
    · simp only [List.mem_cons, hrest]
      tauto

end Entries

end StrataDb.OrderedMap

namespace StrataDb

/-- A map whose entries stand in ascending order of `rank`, no rank twice. -/
structure OrderedMap {K O : Type} [LinearOrder O] (rank : K → O) (V : Type) where
  entries : List (K × V)
  ascending : OrderedMap.Ascending rank entries

namespace OrderedMap

variable {K V O : Type} [LinearOrder O] {rank : K → O}

def empty : OrderedMap rank V := ⟨[], List.Pairwise.nil⟩

def insert (m : OrderedMap rank V) (k : K) (v : V) : OrderedMap rank V :=
  ⟨insertEntry rank k v m.entries, m.ascending.insertEntry k v⟩

/-- The entries of a range of ranks; `none` when a non-empty map is asked for a
    range whose ends are the wrong way around. -/
def range (m : OrderedMap rank V) (start stop : Bound O) : Option (List (K × V)) :=
  if m.entries.isEmpty then some []
  else if reversed start stop then none
  else some (m.entries.filter (fun x => inBounds start stop (rank x.1)))

theorem range_of_not_reversed (m : OrderedMap rank V) {start stop : Bound O}
    (h : reversed start stop = false) :
    m.range start stop = some (m.entries.filter (fun x => inBounds start stop (rank x.1))) := by
  unfold range
  split_ifs with hempty hrev
  · rw [List.isEmpty_iff.mp hempty]
    rfl
  · rw [h] at hrev
    cases hrev
  · rfl

end OrderedMap

end StrataDb
