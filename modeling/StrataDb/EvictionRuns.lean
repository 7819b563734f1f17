import StrataDb.EvictionPolicy

/-!
# Eviction policies over whole histories (`crates/filesystem/src/cache/policies.rs`)

`accessTimes` reads off a history of accesses, removals and victims, without any policy, when an
id was accessed since it was last removed. `Clock` has each tracked id once on its ring; `LruK`
keeps the first `k` of the access times.
-/

namespace StrataDb.Filesystem

variable {Id : Type} [DecidableEq Id]

/-! ### Histories -/

inductive PolicyEvent (Id : Type) where
  | access (id : Id)
  | remove (id : Id)
  | sweep (evictable : Id → Bool)

section Histories

variable {P : Type} [EvictionPolicy P Id]

def PolicyEvent.apply (p : P) : PolicyEvent Id → P
  | .access id => recordAccess p id
  | .remove id => EvictionPolicy.remove p id
  | .sweep evictable => (evictCandidate p evictable).2

def afterHistory (p : P) : List (PolicyEvent Id) → P
  | [] => p
  | e :: past => e.apply (afterHistory p past)

end Histories

def accessCount : List (PolicyEvent Id) → Nat
  | [] => 0
  | .access _ :: past => accessCount past + 1
  | .remove _ :: past => accessCount past
  | .sweep _ :: past => accessCount past

/-- When an id was accessed since it was last removed, newest first.  Time is the number of
    accesses so far. -/
def accessTimes (id : Id) : List (PolicyEvent Id) → List Nat
  | [] => []
  | .access x :: past =>
    if x = id then (accessCount past + 1) :: accessTimes id past else accessTimes id past
  | .remove x :: past => if x = id then [] else accessTimes id past
  | .sweep _ :: past => accessTimes id past

variable {past : List (PolicyEvent Id)} {id : Id}

theorem pos_of_mem_accessTimes {t : Nat} (h : t ∈ accessTimes id past) : 0 < t := by
  fun_induction accessTimes id past with
  | case1 => cases h
  | case2 past ih =>
    rcases List.mem_cons.mp h with rfl | h
    · exact Nat.succ_pos _
    · exact ih h
  | case3 x past _ ih => exact ih h
  | case4 past => cases h
  | case5 x past _ ih => exact ih h
  | case6 _ past ih => exact ih h

theorem tracked_afterHistory {P : Type} [EvictionPolicy P Id] [LawfulPolicy P] {p : P}
    (hp : ∀ id, ¬ LawfulPolicy.Tracked p id) (past : List (PolicyEvent Id)) (id : Id) :
    LawfulPolicy.Tracked (afterHistory p past) id ↔ accessTimes id past ≠ [] := by
  induction past with
  | nil => simpa [afterHistory, accessTimes] using hp id
  | cons e past ih =>
    cases e with
    | access x =>
      rw [afterHistory, PolicyEvent.apply, LawfulPolicy.tracked_recordAccess, accessTimes, ih]
      split_ifs with hx
      · simp [hx]
      · simp [Ne.symm hx]
    | remove x =>
      rw [afterHistory, PolicyEvent.apply, LawfulPolicy.tracked_remove, accessTimes, ih]
      split_ifs with hx
      · simp [hx]
      · simp [Ne.symm hx]
    | sweep evictable =>
      rw [afterHistory, PolicyEvent.apply, LawfulPolicy.tracked_evictCandidate, ih, accessTimes]

/-! ### CLOCK -/

theorem Clock.nodup_sweep (evictable : Id → Bool) (steps : Nat) {c : Clock Id} (h : c.ring.Nodup) :
    (Clock.sweep evictable steps c).2.ring.Nodup := by
  fun_induction Clock.sweep evictable steps c with
  | case1 c => exact h
  | case2 steps c hhead => exact h
  | case3 steps c x hhead hskip ih => exact ih (List.nodup_rotate.mpr h)
  | case4 steps c x hhead hskip hbit ih => exact ih (List.nodup_rotate.mpr h)
  | case5 steps c x hhead hskip hbit => exact List.nodup_rotate.mpr h

def Clock.after (past : List (PolicyEvent Id)) : Clock Id := afterHistory {} past

theorem Clock.nodup_after (past : List (PolicyEvent Id)) : (Clock.after past).ring.Nodup := by
  induction past with
  | nil => exact List.nodup_nil
  | cons e past ih =>
    cases e with
    | access x =>
      show (if x ∈ (Clock.after past).referenced then (Clock.after past).ring
        else (Clock.after past).ring ++ [x]).Nodup
      split_ifs with hx
      · exact ih
      · rw [← Clock.mem_ring] at hx
        rw [← List.concat_eq_append]
        exact ih.concat hx
    | remove x => exact ih.filter _
    | sweep evictable => exact Clock.nodup_sweep evictable _ ih

theorem Clock.mem_after (past : List (PolicyEvent Id)) (id : Id) :
    id ∈ (Clock.after past).ring ↔ accessTimes id past ≠ [] :=
  tracked_afterHistory (P := Clock Id) (fun _ => List.not_mem_nil) past id

/-- **CLOCK finds a victim whenever one exists.**  The sweep has two steps for each tracked id
    and one more; that is enough to return an evictable tracked id if there is one, and the
    sweep tracks the same ids as before. -/
theorem Clock.finds_victim (past : List (PolicyEvent Id)) (evictable : Id → Bool) :
    evictCandidate (Clock.after past) evictable =
        Clock.sweep evictable (2 * {id | accessTimes id past ≠ []}.ncard + 1) (Clock.after past) ∧
      (∀ id, (evictCandidate (Clock.after past) evictable).1 = some id →
        accessTimes id past ≠ [] ∧ evictable id = true) ∧
      ((evictCandidate (Clock.after past) evictable).1 = none ↔
        ∀ id, accessTimes id past ≠ [] → evictable id = false) ∧
      (∀ id, id ∈ (evictCandidate (Clock.after past) evictable).2.ring ↔ accessTimes id past ≠ []) ∧
      (∀ id, id ∈ (Clock.after past).ring ↔ accessTimes id past ≠ []) := by
  have hmem := Clock.mem_after past
  have hsome (id : Id) (h : (evictCandidate (Clock.after past) evictable).1 = some id) :
      accessTimes id past ≠ [] ∧ evictable id = true := by
    obtain ⟨htracked, hevict⟩ := LawfulPolicy.evictCandidate_some _ _ _ h
    exact ⟨(hmem id).mp htracked, hevict⟩
  refine ⟨?_, hsome, ⟨?_, ?_⟩, ?_, hmem⟩
  · have hcard : {id | accessTimes id past ≠ []}.ncard = (Clock.after past).ring.length := by
      rw [← List.toFinset_card_of_nodup (Clock.nodup_after past), ← Set.ncard_coe_finset]
      congr 1
      ext id
      simp [hmem]
    rw [hcard, mul_comm]
    rfl
  · intro h id htracked
    exact LawfulPolicy.evictCandidate_none _ _ h id ((hmem id).mpr htracked)
  · intro h
    apply Option.eq_none_iff_forall_ne_some.mpr
    intro id hid
    obtain ⟨htracked, hevict⟩ := hsome id hid
    exact absurd hevict (by simp [h id htracked])
  · intro id
    rw [← hmem]
    exact LawfulPolicy.tracked_evictCandidate (Clock.after past) evictable id

/-! ### LRU-K -/

/-- The time of the `k`-th most recent access since the last removal. -/
def kthAccess (k : Nat) (id : Id) (past : List (PolicyEvent Id)) :
    Option Nat := (accessTimes id past)[k - 1]?

theorem kthAccess_isSome {k : Nat} (hk : 1 ≤ k) :
    (kthAccess k id past).isSome = true ↔ k ≤ (accessTimes id past).length := by
  rw [kthAccess, Option.isSome_iff_ne_none, ne_eq, List.getElem?_eq_none_iff]
  omega

theorem kthAccess_pos {k : Nat} {t : Nat} (h : kthAccess k id past = some t) : 0 < t :=
  pos_of_mem_accessTimes (List.mem_of_getElem? h)

def LruK.after (k : Nat) (hk : 1 ≤ k) (past : List (PolicyEvent Id)) : LruK Id :=
  afterHistory { k := k, k_pos := hk } past

variable {k : Nat} {hk : 1 ≤ k}

theorem LruK.k_after (past : List (PolicyEvent Id)) : (LruK.after k hk past).k = k := by
  induction past with
  | nil => rfl
  | cons e past ih => cases e <;> exact ih

theorem LruK.clock_after (past : List (PolicyEvent Id)) :
    (LruK.after k hk past).clock = accessCount past := by
  induction past with
  | nil => rfl
  | cons e past ih =>
    cases e with
    | access x => exact congrArg (· + 1) ih
    | remove x => exact ih
    | sweep evictable => exact ih

/-- **The ticks are the newest access times**, as many as `k`. -/
theorem LruK.lookup_after (past : List (PolicyEvent Id)) (id : Id) :
    (LruK.after k hk past).hist.lookup id =
      if accessTimes id past = [] then none else some ((accessTimes id past).take k) := by
  induction past with
  | nil => rfl
  | cons e past ih =>
    cases e with
    | access x =>
      show AList.lookup id (AList.insert x ((((LruK.after k hk past).clock + 1) ::
        ((LruK.after k hk past).hist.lookup x).getD []).take (LruK.after k hk past).k)
          (LruK.after k hk past).hist) = _
      rw [LruK.k_after, LruK.clock_after, accessTimes]
      by_cases hx : x = id
      · subst hx
        -- the ticks beyond the `k`-th are cut off before the next one comes in front
        have hticks : ((LruK.after k hk past).hist.lookup x).getD []
          = (accessTimes x past).take k := by
          rw [ih]
          split_ifs with hnil <;> simp [hnil]
        obtain ⟨m, rfl⟩ := Nat.exists_eq_add_of_le' hk
        rw [AList.lookup_insert, hticks, if_pos rfl, if_neg (List.cons_ne_nil _ _),
          List.take_succ_cons, List.take_succ_cons, List.take_take, Nat.min_eq_left (Nat.le_succ m)]
      · rw [AList.lookup_insert_ne (Ne.symm hx), ih, if_neg hx]
    | remove x =>
      show AList.lookup id (AList.erase x (LruK.after k hk past).hist) = _
      rw [accessTimes]
      by_cases hx : x = id
      · subst hx
        rw [AList.lookup_erase, if_pos rfl, if_pos rfl]
      · rw [AList.lookup_erase_ne (Ne.symm hx), ih, if_neg hx]
    | sweep evictable => exact ih

theorem LruK.rank_take {Id : Type} (p : LruK Id) (ticks : List Nat) :
    (ofLex (p.rank (ticks.take p.k))).1 = (ticks[p.k - 1]?).getD 0 := by
  have hpos := p.k_pos
  show (if (ticks.take p.k).length < p.k then 0 else (ticks.take p.k).getD (p.k - 1) 0) = _
  rw [List.length_take]
  split_ifs with hlen
  · rw [List.getElem?_eq_none (by omega), Option.getD_none]
  · rw [List.getD_eq_getElem?_getD, List.getElem?_take_of_lt (by omega)]

theorem LruK.mem_after {ticks : List Nat} :
    ⟨id, ticks⟩ ∈ (LruK.after k hk past).hist.entries ↔
      accessTimes id past ≠ [] ∧ (accessTimes id past).take k = ticks := by
  rw [← AList.mem_lookup_iff, LruK.lookup_after, Option.mem_def]
  split_ifs with hnil <;> simp [hnil]

theorem LruK.kthAccess_le {evictable : Id → Bool} {x : Id}
    (h : (evictCandidate (LruK.after k hk past) evictable).1 = some id)
    (hx : accessTimes x past ≠ []) (hevict : evictable x = true) :
    (kthAccess k id past).getD 0 ≤ (kthAccess k x past).getD 0 := by
  obtain ⟨ticks, hticks, hle⟩ := le_of_coldest h
  have hrank := hle ⟨x, _⟩ (LruK.mem_after.mpr ⟨hx, rfl⟩) hevict
  have hfst (y : Id) : (ofLex ((LruK.after k hk past).rank ((accessTimes y past).take k))).1 =
      (kthAccess k y past).getD 0 := by
    have := (LruK.after k hk past).rank_take (accessTimes y past)
    rwa [LruK.k_after] at this
  rw [← (LruK.mem_after.mp hticks).2] at hrank
  rw [← hfst, ← hfst]
  exact (Prod.Lex.le_iff.mp hrank).elim le_of_lt fun heq => heq.1.le

/-- **LRU-K is scan resistant.**  No id with `k` accesses is chosen while an evictable one has
    fewer; if all have `k`, the one whose `k`-th most recent access is oldest is chosen. -/
theorem LruK.scan_resistant (k : Nat) (hk : 1 ≤ k) (past : List (PolicyEvent Id))
    (evictable : Id → Bool) :
    (∀ id, (evictCandidate (LruK.after k hk past) evictable).1 = some id →
      k ≤ (accessTimes id past).length →
        ∀ x, evictable x = true → accessTimes x past ≠ [] → k ≤ (accessTimes x past).length) ∧
      ((∃ x, evictable x = true ∧ accessTimes x past ≠ []) →
        (∀ x, evictable x = true → accessTimes x past ≠ [] → k ≤ (accessTimes x past).length) →
        ∃ id t, (evictCandidate (LruK.after k hk past) evictable).1 = some id
          ∧ evictable id = true ∧
          kthAccess k id past = some t ∧
          ∀ x s, evictable x = true → kthAccess k x past = some s → t ≤ s) := by
  constructor
  · intro id hid hwarm x hevict hx
    obtain ⟨t, ht⟩ := Option.isSome_iff_exists.mp ((kthAccess_isSome hk).mpr hwarm)
    rw [← kthAccess_isSome hk]
    -- an id without a `k`-th access counts as older than any with one
    by_contra hcold
    have hle := LruK.kthAccess_le hid hx hevict
    rw [ht, Option.not_isSome_iff_eq_none.mp hcold] at hle
    exact absurd (kthAccess_pos ht) (not_lt.mpr hle)
  · rintro ⟨x, hevict, hx⟩ hwarm
    have htracked (y : Id) : y ∈ (LruK.after k hk past).hist ↔ accessTimes y past ≠ [] :=
      tracked_afterHistory (P := LruK Id) (fun _ => AList.notMem_empty _) past y
    cases hvictim : (evictCandidate (LruK.after k hk past) evictable).1 with
    | none =>
      have hfalse := LawfulPolicy.evictCandidate_none _ _ hvictim x ((htracked x).mpr hx)
      rw [hevict] at hfalse
      cases hfalse
    | some id =>
      obtain ⟨hmem, hid⟩ := LawfulPolicy.evictCandidate_some _ _ _ hvictim
      have hlen := hwarm id hid ((htracked id).mp hmem)
      obtain ⟨t, ht⟩ := Option.isSome_iff_exists.mp ((kthAccess_isSome hk).mpr hlen)
      refine ⟨id, t, rfl, hid, ht, ?_⟩
      intro y s hy hs
      have hne : accessTimes y past ≠ [] := by
        intro hnil
        simp [kthAccess, hnil] at hs
      have hle := LruK.kthAccess_le hvictim hne hy
      rwa [ht, hs] at hle

/-- Two ids accessed twice and a scan of a third, which is pinned: the victim is the id whose
    second last access is older. -/
theorem LruK.scan_resistant_two :
    ∃ id t,
      (evictCandidate (LruK.after 2 (by decide) [.access 3, .access 1, .access 2, .access 2,
      .access 1])
        (fun id => id != 3)).1 = some id ∧
      kthAccess 2 id [.access 3, .access 1, .access 2, .access 2, .access 1] = some t ∧ t ≤ 1 := by
  have hwarm (x : Nat) (hx : (x != 3) = true)
      (hne : accessTimes x [.access 3, .access 1, .access 2, .access 2, .access 1] ≠ []) :
      2 ≤ (accessTimes x [.access 3, .access 1, .access 2, .access 2, .access 1]).length := by
    have h3 : ¬ 3 = x := fun h => by simp [← h] at hx
    by_cases h1 : 1 = x
    · subst h1
      decide
    · have h2 : 2 = x := by
        by_contra h2
        simp [accessTimes, h1, h2, h3] at hne
      subst h2
      decide
  obtain ⟨id, t, hid, -, ht, hle⟩ :=
    (LruK.scan_resistant 2 (by decide) _ (fun id => id != 3)).2 ⟨1, rfl, by decide⟩ hwarm
  exact ⟨id, t, hid, ht, hle 1 1 rfl rfl⟩

end StrataDb.Filesystem
