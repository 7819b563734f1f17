import StrataDb.EvictionPolicy

/-!
# The memo cache (`crates/filesystem/src/cache/memo.rs`)

A read-through cache under a budget of entries or bytes, with any eviction policy. `clear` leaves
the policy as it is, so a victim need not be cached. The eviction loop has fuel; one round more
than the policy tracks ids is enough. Weights are natural numbers: they do not overflow.
-/

namespace StrataDb.Filesystem

open LawfulPolicy (Tracked tracked_recordAccess tracked_remove)

/-- A policy's state is finite. -/
class FinitePolicy (P : Type) {Id : outParam Type} [EvictionPolicy P Id]
    [LawfulPolicy P] : Prop where
  finite_tracked : ∀ p : P, {id | Tracked p id}.Finite

/-- The number of ids a policy tracks. -/
noncomputable def trackedCount {P Id : Type} [EvictionPolicy P Id] [LawfulPolicy P] (policy : P) :
    Nat :=
  {id | Tracked policy id}.ncard

theorem trackedCount_recordAccess_le {P Id : Type} [EvictionPolicy P Id] [LawfulPolicy P]
    (policy : P) (id : Id) : trackedCount (recordAccess policy id) ≤ trackedCount policy + 1 := by
  have hinsert : {x | Tracked (recordAccess policy id) x} =
      insert id {x | Tracked policy x} := by
    ext x
    exact tracked_recordAccess policy id x
  rw [trackedCount, hinsert]
  exact Set.ncard_insert_le _ _

section Finite

variable {Id : Type} [DecidableEq Id]

instance : FinitePolicy (Lru Id) := ⟨fun p => p.last.keys.finite_toSet⟩
instance : FinitePolicy (LruK Id) := ⟨fun p => p.hist.keys.finite_toSet⟩
instance : FinitePolicy (Lfu Id) := ⟨fun p => p.freq.keys.finite_toSet⟩
instance : FinitePolicy (Clock Id) := ⟨fun c => c.ring.finite_toSet⟩

end Finite

/-! ### The cache -/

class Weight (V : Type) where
  weight : V → Nat

export Weight (weight)

instance : Weight (List UInt8) := ⟨List.length⟩

inductive Budget where
  | unbounded
  | entries (max : Nat)
  | bytes (max : Nat)
deriving DecidableEq, Repr

structure Cache (K V P : Type) where
  entries : AList (fun _ : K => V) := ∅
  policy : P
  bytes : Nat := 0
  budget : Budget

namespace Cache

variable {K V P E : Type} [DecidableEq K] [Weight V] [EvictionPolicy P K]

def new (budget : Budget) (policy : P) : Cache K V P := { policy, budget }

def len (c : Cache K V P) : Nat := c.entries.entries.length

def overBudget (c : Cache K V P) : Bool :=
  match c.budget with
  | .unbounded => false
  | .entries max => c.len > max
  | .bytes max => c.bytes > max

def evict (c : Cache K V P) (policy : P) (key : K) : Cache K V P :=
  { c with
    entries := c.entries.erase key
    bytes := match c.entries.lookup key with
      | some v => c.bytes - weight v
      | none => c.bytes
    policy := remove policy key }

def evictToBudget : Nat → Cache K V P → Option (Cache K V P)
  | 0, _ => none
  | fuel + 1, c =>
    if c.overBudget then
      match evictCandidate c.policy (fun _ => true) with
      | (none, policy) => some { c with policy }
      | (some key, policy) => evictToBudget fuel (c.evict policy key)
    else some c

def getOrLoad (fuel : Nat) (c : Cache K V P) (key : K) (load : Except E V) :
    Option (Except E V × Cache K V P) :=
  match c.entries.lookup key with
  | some v => some (.ok v, { c with policy := recordAccess c.policy key })
  | none =>
    match load with
    | .error e => some (.error e, c)
    | .ok v =>
      (evictToBudget fuel { c with
        bytes := c.bytes + weight v
        entries := c.entries.insert key v
        policy := recordAccess c.policy key }).map (fun c' => (.ok v, c'))

def get (c : Cache K V P) (key : K) : Option V × Cache K V P :=
  match c.entries.lookup key with
  | some v => (some v, { c with policy := recordAccess c.policy key })
  | none => (none, c)

def clear (c : Cache K V P) : Cache K V P := { c with entries := ∅, bytes := 0 }

/-! ### Accounting -/

def totalWeight (c : Cache K V P) : Nat := (c.entries.entries.map fun e => weight e.2).sum

theorem sum_weight_kerase (key : K) (entries : List (Sigma fun _ : K => V)) :
    (entries.map fun e => weight e.2).sum =
      ((entries.kerase key).map fun e => weight e.2).sum + ((entries.dlookup key).map weight).getD
      0 := by
  induction entries with
  | nil => rfl
  | cons e entries ih =>
    obtain ⟨x, v⟩ := e
    by_cases hkey : key = x
    · subst hkey
      simp [Nat.add_comm]
    · rw [List.kerase_cons_ne hkey, List.dlookup_cons_ne _ _ hkey, List.map_cons, List.map_cons,
        List.sum_cons, List.sum_cons, ih, Nat.add_assoc]

/-- What holds of a cache between calls: its entries are the loader's, the policy tracks
    them (and perhaps more), and the byte count is their weight. -/
structure Inv [LawfulPolicy P] (value : K → V) (c : Cache K V P) : Prop where
  cached : ∀ key v, c.entries.lookup key = some v → v = value key
  tracked : ∀ key ∈ c.entries, Tracked c.policy key
  bytes : c.bytes = c.totalWeight

variable [LawfulPolicy P] {value : K → V} {c : Cache K V P}

theorem Inv.evict (h : Inv value c) {policy : P}
    (hpolicy : ∀ id, Tracked policy id ↔ Tracked c.policy id) (key : K) :
    Inv value (c.evict policy key) := by
  constructor
  · intro x v hx
    refine h.cached x v ?_
    by_cases hkey : x = key
    · subst hkey
      simp [Cache.evict] at hx
    · rwa [Cache.evict, AList.lookup_erase_ne hkey] at hx
  · intro x hx
    obtain ⟨hne, hmem⟩ := AList.mem_erase.mp hx
    exact (tracked_remove _ _ _).mpr ⟨hne, (hpolicy x).mpr (h.tracked x hmem)⟩
  · -- the bytes of the entry are taken off the count
    have hsum := sum_weight_kerase key c.entries.entries
    have hbytes := h.bytes
    show (match c.entries.lookup key with
      | some v => c.bytes - weight v
      | none => c.bytes) = ((c.entries.entries.kerase key).map fun e => weight e.2).sum
    rw [totalWeight] at hbytes
    rw [← AList.lookup] at hsum
    cases hlookup : c.entries.lookup key with
    | none =>
      rw [hlookup] at hsum
      simpa [hbytes] using hsum
    | some v =>
      rw [hlookup] at hsum
      simp only [hbytes, hsum, Option.map_some, Option.getD_some, Nat.add_sub_cancel]

theorem Inv.recordAccess (h : Inv value c) (key : K) :
    Inv value { c with policy := Filesystem.recordAccess c.policy key } :=
  ⟨h.cached, fun x hx => (tracked_recordAccess _ _ _).mpr (Or.inr (h.tracked x hx)), h.bytes⟩

theorem Inv.insert (h : Inv value c) {key : K} (hmiss : c.entries.lookup key = none) :
    Inv value { c with
      bytes := c.bytes + weight (value key)
      entries := c.entries.insert key (value key)
      policy := Filesystem.recordAccess c.policy key } := by
  constructor
  · intro x v hx
    by_cases hkey : x = key
    · subst hkey
      rw [AList.lookup_insert] at hx
      exact (Option.some.inj hx).symm
    · rw [AList.lookup_insert_ne hkey] at hx
      exact h.cached x v hx
  · intro x hx
    refine (tracked_recordAccess _ _ _).mpr ?_
    exact (AList.mem_insert _).mp hx |>.imp_right (h.tracked x)
  · rw [totalWeight, AList.insert_of_notMem (AList.lookup_eq_none.mp hmiss), List.map_cons,
      List.sum_cons, h.bytes, totalWeight, Nat.add_comm]

theorem inv_clear : Inv value c.clear :=
  ⟨fun _ _ hx => (by cases hx), fun x hx => absurd hx (AList.notMem_empty x), rfl⟩

theorem Inv.overBudget_of_empty (h : Inv value c) (hempty : ∀ key, key ∉ c.entries) :
    c.overBudget = false := by
  have hentries : c.entries.entries = [] := by
    refine List.eq_nil_iff_forall_not_mem.mpr fun e he => hempty e.1 ?_
    exact AList.mem_keys.mpr (List.mem_keys_of_mem he)
  have hbytes := h.bytes
  rw [totalWeight, hentries] at hbytes
  rw [overBudget]
  split
  · rfl
  · simp [len, hentries]
  · simp [hbytes]

/-! ### Eviction ends within the budget -/

variable [FinitePolicy P]

theorem trackedCount_evict_lt {policy : P} {key : K}
    (hpolicy : ∀ id, Tracked policy id ↔ Tracked c.policy id)
    (hkey : Tracked c.policy key) :
    trackedCount (c.evict policy key).policy < trackedCount c.policy := by
  refine Set.ncard_lt_ncard ⟨?_, ?_⟩ (FinitePolicy.finite_tracked c.policy)
  · intro id hid
    exact (hpolicy id).mp ((tracked_remove _ _ _).mp hid).2
  · intro hsub
    exact ((tracked_remove _ _ _).mp (hsub hkey)).1 rfl

/-- **Eviction ends, within the budget.**  One round more than the policy tracks ids is enough. -/
theorem Inv.evictToBudget_ok (h : Inv value c) {fuel : Nat} (hfuel : trackedCount c.policy < fuel) :
    ∃ c', evictToBudget fuel c = some c' ∧ Inv value c' ∧ c'.overBudget = false
      ∧ c'.budget = c.budget ∧
      trackedCount c'.policy ≤ trackedCount c.policy := by
  induction fuel generalizing c with
  | zero => omega
  | succ fuel ih =>
    rw [evictToBudget]
    cases hover : c.overBudget with
    | false => exact ⟨c, rfl, h, hover, rfl, le_refl _⟩
    | true =>
      have hpolicy := LawfulPolicy.tracked_evictCandidate c.policy (fun _ => true)
      have hsome := LawfulPolicy.evictCandidate_some c.policy (fun _ => true)
      have hnone := LawfulPolicy.evictCandidate_none c.policy (fun _ => true)
      rcases hvictim : evictCandidate c.policy (fun _ => true) with ⟨victim, policy⟩
      rw [hvictim] at hpolicy hsome hnone
      cases victim with
      | none =>
        -- nothing is tracked any more, so nothing is cached
        have hempty := h.overBudget_of_empty fun key hkey => by
          have := hnone rfl key (h.tracked key hkey)
          cases this
        rw [hover] at hempty
        cases hempty
      | some key =>
        have hlt := trackedCount_evict_lt (c := c) hpolicy (hsome key rfl).1
        obtain ⟨c', hevict, hinv, hbudget, hsame, hle⟩ := ih (h.evict hpolicy key) (by omega)
        exact ⟨c', hevict, hinv, hbudget, hsame, hle.trans hlt.le⟩

end Cache

/-! ### Sequences of calls -/

section Calls

variable {K V P E : Type}

inductive MemoCall (K V E : Type) where
  | getOrLoad (key : K) (load : Except E V)
  | get (key : K)
  | clear

inductive MemoResult (V E : Type) where
  | loaded (result : Except E V)
  | found (v : Option V)
  | cleared

/-- What a call may return if the loader of a key gives `value key` or fails: a value is the
    loader's, an error comes from this call's loader. -/
def MemoCall.Returns (value : K → V) : MemoCall K V E → MemoResult V E → Prop
  | .getOrLoad key load, .loaded result => result = .ok (value key) ∨ ∃ e, load = .error e
    ∧ result = .error e
  | .get key, .found v => v = none ∨ v = some (value key)
  | .clear, .cleared => True
  | _, _ => False

variable [DecidableEq K] [Weight V] [EvictionPolicy P K]

def Cache.call (fuel : Nat) (c : Cache K V P) :
    MemoCall K V E → Option (MemoResult V E × Cache K V P)
  | .getOrLoad key load => (c.getOrLoad fuel key load).map fun (result, c') => (.loaded result, c')
  | .get key => some (.found (c.get key).1, (c.get key).2)
  | .clear => some (.cleared, c.clear)

def Cache.calls (fuel : Nat) (c : Cache K V P) :
    List (MemoCall K V E) → Option (List (MemoResult V E) × Cache K V P)
  | [] => some ([], c)
  | call :: calls => do
    let (result, c) ← c.call fuel call
    let (results, c) ← c.calls fuel calls
    pure (result :: results, c)

variable [LawfulPolicy P] [FinitePolicy P] {value : K → V} {c : Cache K V P}

theorem Cache.Inv.call (h : c.Inv value) (hbudget : c.overBudget = false) {call : MemoCall K V E}
    (hload : ∀ key v, call = .getOrLoad key (.ok v) → v = value key) {fuel : Nat}
    (hfuel : trackedCount c.policy + 1 < fuel) :
    ∃ result c', c.call fuel call = some (result, c') ∧ call.Returns value result ∧ c'.Inv value ∧
      c'.overBudget = false ∧ c'.budget = c.budget ∧ trackedCount c'.policy ≤ trackedCount
        c.policy + 1 := by
  cases call with
  | getOrLoad key load =>
    simp only [Cache.call, Cache.getOrLoad]
    have hcount := trackedCount_recordAccess_le c.policy key
    cases hlookup : c.entries.lookup key with
    | some v =>
      obtain rfl := h.cached key v hlookup
      exact ⟨_, _, rfl, Or.inl rfl, h.recordAccess key, hbudget, rfl, hcount⟩
    | none =>
      cases load with
      -- a loader that fails leaves nothing behind
      | error e => exact ⟨_, _, rfl, Or.inr ⟨e, rfl, rfl⟩, h, hbudget, rfl, Nat.le_succ _⟩
      | ok v =>
        obtain rfl := hload key v rfl
        obtain ⟨c', hevict, hinv, hwithin, hsame, hle⟩ :=
          (h.insert hlookup).evictToBudget_ok (lt_of_le_of_lt hcount hfuel)
        refine ⟨.loaded (.ok (value key)), c', ?_, Or.inl rfl, hinv, hwithin, hsame,
          hle.trans hcount⟩
        simp only [hevict, Option.map_some]
  | get key =>
    rw [Cache.call, Cache.get]
    cases hlookup : c.entries.lookup key with
    | some v =>
      obtain rfl := h.cached key v hlookup
      exact ⟨_, _, rfl, Or.inr rfl, h.recordAccess key, hbudget, rfl,
        trackedCount_recordAccess_le _ _⟩
    | none => exact ⟨_, _, rfl, Or.inl rfl, h, hbudget, rfl, Nat.le_succ _⟩
  | clear =>
    have hinv : c.clear.Inv value := Cache.inv_clear
    have hempty := hinv.overBudget_of_empty fun key => AList.notMem_empty key
    exact ⟨_, _, rfl, trivial, hinv, hempty, rfl, Nat.le_succ _⟩

theorem Cache.Inv.calls (h : c.Inv value) (hbudget : c.overBudget = false)
    {calls : List (MemoCall K V E)}
    (hload : ∀ key v, .getOrLoad key (.ok v) ∈ calls → v = value key) {fuel : Nat}
    (hfuel : trackedCount c.policy + calls.length < fuel) :
    ∃ results c', c.calls fuel calls = some (results, c') ∧
      List.Forall₂ (fun call result => call.Returns value result) calls results ∧ c'.Inv value ∧
      c'.overBudget = false ∧ c'.budget = c.budget := by
  induction calls generalizing c with
  | nil => exact ⟨[], c, rfl, .nil, h, hbudget, rfl⟩
  | cons call calls ih =>
    rw [List.length_cons] at hfuel
    have hone : trackedCount c.policy + 1 < fuel := by omega
    obtain ⟨result, c₁, hcall, hresult, h₁, hbudget₁, hsame₁, hcount⟩ :=
      h.call hbudget (fun key v heq => hload key v (heq ▸ List.mem_cons_self)) hone
    obtain ⟨results, c₂, hcalls, hresults, h₂, hbudget₂, hsame₂⟩ :=
      ih h₁ hbudget₁ (fun key v hmem => hload key v (List.mem_cons_of_mem _ hmem)) (by omega)
    refine ⟨result :: results, c₂, ?_, .cons hresult hresults, h₂, hbudget₂, hsame₂.trans hsame₁⟩
    simp [Cache.calls, hcall, hcalls]

/-- **The memo cache is transparent and within budget.**  Whatever the policy tracked before
    and however often the cache is cleared: each call returns, a returned value is the loader's,
    the byte count is the weight of what is cached, and the cache is within its budget. -/
theorem Cache.transparent_within_budget (value : K → V) (budget : Budget) (policy : P)
    (calls : List (MemoCall K V E))
    (hload : ∀ key v, .getOrLoad key (.ok v) ∈ calls → v = value key) {fuel : Nat}
    (hfuel : trackedCount policy + calls.length < fuel) :
    ∃ results c, (Cache.new budget policy).calls fuel calls = some (results, c) ∧
      List.Forall₂ (fun call result => call.Returns value result) calls results ∧
      c.bytes = c.totalWeight ∧ c.overBudget = false ∧ c.budget = budget := by
  have hnew : (Cache.new budget policy : Cache K V P).Inv value :=
    ⟨fun _ _ hx => (by cases hx), fun x hx => absurd hx (AList.notMem_empty x), rfl⟩
  have hbudget := hnew.overBudget_of_empty fun key => AList.notMem_empty key
  obtain ⟨results, c, hcalls, hresults, hinv, hwithin, hsame⟩ := hnew.calls hbudget hload hfuel
  exact ⟨results, c, hcalls, hresults, hinv.bytes, hwithin, hsame⟩

theorem Cache.transparent_after_clear :
    ∃ results c, (Cache.new (.bytes 4) ({} : Lru Nat)).calls 4
        [.getOrLoad 1 (.ok [1, 1, 1]), .clear,
          .getOrLoad 2 (.ok [2, 2, 2] : Except Unit (List UInt8))] =
          some (results, c) ∧ c.bytes = c.totalWeight ∧ c.overBudget = false
            ∧ c.budget = .bytes 4 := by
  have hcount : trackedCount ({} : Lru Nat) = 0 := by
    simp [trackedCount, Tracked]
  obtain ⟨results, c, hcalls, -, hbytes⟩ := Cache.transparent_within_budget
    (fun key => if key = 1 then [1, 1, 1] else [2, 2, 2]) (.bytes 4) ({} : Lru Nat)
    [.getOrLoad 1 (.ok [1, 1, 1]), .clear, .getOrLoad 2 (.ok [2, 2, 2] : Except Unit (List UInt8))]
    (by simp; rintro key v (⟨rfl, rfl⟩ | ⟨rfl, rfl⟩) <;> rfl) (by rw [hcount]; decide : _ < 4)
  exact ⟨results, c, hcalls, hbytes⟩

end Calls

end StrataDb.Filesystem
