import StrataDb.Merge
import StrataDb.SsTableSpec

/-!
# Merging versioned streams (`crates/lsm/src/iterator.rs`)

A scan merges its sources in internal-key order, errors first, and keeps of each user key the
first entry: the newest one (`resolve_merge`).
-/

namespace StrataDb.Lsm

open ByteCodec Merge
open InternalKey (rank_eq_rank rank_lt_rank)

/-! ### The merge -/

def compareItems : Except ReadError KeyValue → Except ReadError KeyValue → Ordering
  | .ok x, .ok y => compare x.key y.key
  | .error _, .ok _ => .lt
  | .ok _, .error _ => .gt
  | .error _, .error _ => .eq

def itemRank : Except ReadError KeyValue → WithBot Rank
  | .ok kv => kv.key.rank
  | .error _ => ⊥

theorem compareItems_eq_lt_iff (a b : Except ReadError KeyValue) :
    compareItems a b = .lt ↔ itemRank a < itemRank b := by
  cases a <;> cases b <;> simp [compareItems, itemRank, InternalKey.compare_eq_lt_iff]

/-- Entries in internal-key order; equal internal keys may repeat. -/
def RankSorted (entries : List KeyValue) : Prop :=
  entries.Pairwise (fun a b => a.key.rank ≤ b.key.rank)

variable {entries : List KeyValue}

theorem RankSorted.keySorted (h : RankSorted entries) : KeySorted entries := by
  refine List.Pairwise.imp ?_ h
  intro a b hab
  rcases hab.lt_or_eq with hlt | heq
  · rcases rank_lt_rank.mp hlt with hlt | ⟨heq, -⟩
    · exact hlt.le
    · exact heq.le
  · exact (rank_eq_rank.mp heq).1.le

theorem exists_map_ok {items : List (Except ReadError KeyValue)} (h : ∀ x ∈ items, ∃ kv,
    x = .ok kv) :
    ∃ entries : List KeyValue, items = entries.map .ok := by
  induction items with
  | nil => exact ⟨[], rfl⟩
  | cons x items ih =>
    obtain ⟨kv, rfl⟩ := h x List.mem_cons_self
    obtain ⟨entries, rfl⟩ := ih (fun y hy => h y (List.mem_cons_of_mem _ hy))
    exact ⟨kv :: entries, rfl⟩

variable {sources : List (List KeyValue)}

theorem sorted_map_ok (h : ∀ s ∈ sources, RankSorted s) :
    Sorted itemRank (sources.map (·.map Except.ok)) := by
  intro s hs
  obtain ⟨entries, hentries, rfl⟩ := List.mem_map.mp hs
  exact List.pairwise_map.mpr ((h entries hentries).imp (fun hab => WithBot.coe_le_coe.mpr hab))

theorem merge_ok (h : ∀ s ∈ sources, RankSorted s) :
    ∃ entries : List KeyValue,
      merge compareItems (sources.map (·.map .ok)) = entries.map .ok ∧
      entries.Perm sources.flatten ∧ RankSorted entries := by
  have hsorted := sorted_map_ok h
  have hperm := merge_perm compareItems_eq_lt_iff hsorted
  have hmerged := merge_sorted compareItems_eq_lt_iff hsorted
  rw [← List.map_flatten] at hperm
  obtain ⟨entries, hentries⟩ := exists_map_ok (fun x hx => by
    obtain ⟨kv, -, rfl⟩ := List.mem_map.mp (hperm.subset hx)
    exact ⟨kv, rfl⟩)
  rw [hentries] at hperm hmerged
  refine ⟨entries, hentries, ?_, ?_⟩
  · exact (List.map_perm_map_iff (fun _ _ hab => Except.ok.inj hab)).mp hperm
  · exact (List.pairwise_map.mp hmerged).imp (fun hab => WithBot.coe_le_coe.mp hab)

/-! ### Version resolution -/

/-- `VersionResolver`: the first entry of each user key; a tombstone hides its key. -/
def resolveVersions : Option Bytes → List (Except ReadError KeyValue) →
    List (Except ReadError (Bytes × Bytes))
  | _, [] => []
  | lastKey, .error e :: rest => .error e :: resolveVersions lastKey rest
  | lastKey, .ok kv :: rest =>
    if lastKey = some kv.key.userKey then resolveVersions lastKey rest
    else
      match kv.key.op with
      | .put => .ok (kv.key.userKey, kv.value) :: resolveVersions (some kv.key.userKey) rest
      | .delete => resolveVersions (some kv.key.userKey) rest

theorem resolveVersions_ok (last : Option Bytes) (hs : KeySorted entries)
    (hlast : ∀ u, last = some u → ∀ kv ∈ entries, u ≤ kv.key.userKey) :
    ∃ pairs : List (Bytes × Bytes), resolveVersions last (entries.map .ok) = pairs.map .ok ∧
      pairs.Pairwise (fun a b => a.1 < b.1) ∧
      ∀ k v, (k, v) ∈ pairs ↔ last ≠ some k ∧ ∃ kv, entries.find? (hasKey k) = some kv ∧
        kv.key.op = .put ∧ kv.value = v := by
  induction entries generalizing last with
  | nil => exact ⟨[], rfl, List.Pairwise.nil, by simp⟩
  | cons kv entries ih =>
    obtain ⟨hle, hrest⟩ := List.pairwise_cons.mp hs
    rw [List.map_cons, resolveVersions]
    split_ifs with hsame
    · -- an older version of the key just seen
      obtain ⟨pairs, hpairs, hasc, hmem⟩ :=
        ih last hrest (fun u hu x hx => hlast u hu x (List.mem_cons_of_mem _ hx))
      refine ⟨pairs, hpairs, hasc, ?_⟩
      intro k v
      rw [hmem]
      refine and_congr_right (fun hne => ?_)
      have hother : hasKey k kv = false := by
        rw [hsame] at hne
        simpa [hasKey] using fun h => hne (congrArg some h)
      rw [List.find?_cons_of_neg (by simp [hother])]
    · obtain ⟨pairs, hpairs, hasc, hmem⟩ := ih (some kv.key.userKey) hrest (by
        rintro u ⟨⟩ x hx
        exact hle x hx)
      have habove : ∀ p ∈ pairs, kv.key.userKey < p.1 := by
        rintro ⟨k, v⟩ hp
        obtain ⟨hne, x, hx, -⟩ := (hmem k v).mp hp
        have hkey := userKey_of_find hx
        have hxle := hle x (List.mem_of_find?_eq_some hx)
        rw [hkey] at hxle
        exact lt_of_le_of_ne hxle (fun heq => hne (congrArg some heq))
      -- a key other than this entry's is looked for in the rest
      have hother : ∀ k v, k ≠ kv.key.userKey →
          ((k, v) ∈ pairs ↔ last ≠ some k ∧ ∃ x, (kv :: entries).find? (hasKey k) = some x ∧
            x.key.op = .put ∧ x.value = v) := by
        intro k v hk
        rw [hmem, List.find?_cons_of_neg (by simp [hasKey, Ne.symm hk])]
        constructor
        · rintro ⟨-, x, hx, hop, hv⟩
          refine ⟨?_, x, hx, hop, hv⟩
          intro hlastk
          -- keys only go up, so `k` cannot come again after a later key
          have hxk := userKey_of_find hx
          have h₁ := hlast k hlastk kv List.mem_cons_self
          have h₂ := hle x (List.mem_of_find?_eq_some hx)
          rw [hxk] at h₂
          exact hk (le_antisymm h₁ h₂)
        · rintro ⟨-, x, hx, hop, hv⟩
          exact ⟨fun h => hk (Option.some.inj h).symm, x, hx, hop, hv⟩
      have hself : (kv :: entries).find? (hasKey kv.key.userKey) = some kv :=
        List.find?_cons_of_pos (by simp [hasKey])
      cases hop : kv.key.op with
      | put =>
        refine ⟨(kv.key.userKey, kv.value) :: pairs, by simp only [hpairs, List.map_cons],
          List.pairwise_cons.mpr ⟨habove, hasc⟩, ?_⟩
        intro k v
        by_cases hk : k = kv.key.userKey
        · subst hk
          rw [hself, List.mem_cons]
          constructor
          · rintro (heq | hp)
            · exact ⟨hsame, kv, rfl, hop, (congrArg Prod.snd heq).symm⟩
            · exact absurd (habove _ hp) (lt_irrefl _)
          · rintro ⟨-, x, hx, -, rfl⟩
            obtain rfl := Option.some.inj hx
            exact Or.inl rfl
        · rw [List.mem_cons, ← hother k v hk]
          exact or_iff_right (fun heq => hk (congrArg Prod.fst heq))
      | delete =>
        refine ⟨pairs, by simp only [hpairs], hasc, ?_⟩
        intro k v
        by_cases hk : k = kv.key.userKey
        · subst hk
          rw [hself]
          constructor
          · intro hp
            exact absurd (habove _ hp) (lt_irrefl _)
          · rintro ⟨-, x, hx, hput, -⟩
            obtain rfl := Option.some.inj hx
            rw [hop] at hput
            cases hput
        · exact hother k v hk

/-- **Merge and resolve.**  One pair for each user key whose first entry in
    internal-key order is a put, in strictly ascending key order. -/
theorem resolve_merge (sources : List (List KeyValue)) (h : ∀ s ∈ sources, RankSorted s) :
    ∃ (entries : List KeyValue) (pairs : List (Bytes × Bytes)),
      entries.Perm sources.flatten ∧ RankSorted entries ∧
      resolveVersions none (merge compareItems (sources.map (·.map .ok))) = pairs.map .ok ∧
      pairs.Pairwise (fun a b => a.1 < b.1) ∧
      ∀ k v, (k, v) ∈ pairs ↔ ∃ kv, entries.find? (hasKey k) = some kv ∧ kv.key.op = .put ∧
        kv.value = v := by
  obtain ⟨entries, hmerge, hperm, hsorted⟩ := merge_ok h
  obtain ⟨pairs, hpairs, hasc, hmem⟩ :=
    resolveVersions_ok none hsorted.keySorted (by simp)
  refine ⟨entries, pairs, hperm, hsorted, by rw [hmerge, hpairs], hasc, ?_⟩
  intro k v
  rw [hmem]
  simp

/-! ### The latest entry of a key -/

/-- What the sources have last for a user key: of its entries with the highest sequence
    number, the first in source order. -/
structure Latest (sources : List (List KeyValue)) (key : Bytes) (kv : KeyValue) : Prop where
  userKey : kv.key.userKey = key
  seq : ∀ x ∈ sources.flatten, x.key.userKey = key → x.key.seq ≤ kv.key.seq
  first : (sources.flatten.filter fun x => x.key.rank = kv.key.rank).head? = some kv

theorem Latest.unique {key : Bytes} {kv kv' : KeyValue} (h : Latest sources key kv)
    (h' : Latest sources key kv') : kv = kv' := by
  have hmem {x : KeyValue} (hx : Latest sources key x) : x ∈ sources.flatten :=
    List.mem_of_mem_filter (List.mem_of_head? hx.first)
  have hseq : kv.key.seq = kv'.key.seq :=
    le_antisymm (h'.seq kv (hmem h) h.userKey) (h.seq kv' (hmem h') h'.userKey)
  have hrank : kv.key.rank = kv'.key.rank :=
    rank_eq_rank.mpr ⟨h.userKey.trans h'.userKey.symm, hseq⟩
  have hfirst := h.first
  rw [hrank] at hfirst
  exact Option.some.inj (hfirst.symm.trans h'.first)

theorem find_iff_latest
    (hperm : entries.Perm sources.flatten) (hsorted : RankSorted entries)
    (hstable : ∀ rank, (entries.filter fun kv => kv.key.rank = rank)
      = sources.flatten.filter fun kv => kv.key.rank = rank) (key : Bytes) (kv : KeyValue) :
    entries.find? (hasKey key) = some kv ↔ Latest sources key kv := by
  have hlatest {x : KeyValue} (hx : entries.find? (hasKey key) = some x) :
      Latest sources key x := by
    have hkey := userKey_of_find hx
    obtain ⟨-, before, after, rfl, hbefore⟩ := List.find?_eq_some_iff_append.mp hx
    have hother (y : KeyValue) (hy : y ∈ before) : y.key.userKey ≠ key := by
      simpa [hasKey] using hbefore y hy
    refine ⟨hkey, fun y hy hykey => ?_, ?_⟩
    · rcases List.mem_append.mp (hperm.symm.subset hy) with hy | hy
      · exact absurd hykey (hother y hy)
      · rcases List.mem_cons.mp hy with rfl | hy
        · exact le_refl _
        · have hle := List.rel_of_pairwise_cons (List.pairwise_append.mp hsorted).2.1 hy
          rcases hle.lt_or_eq with hlt | heq
          · rcases rank_lt_rank.mp hlt with hlt | ⟨-, hseq⟩
            · exact absurd (hkey.trans hykey.symm) hlt.ne
            · exact hseq.le
          · exact (rank_eq_rank.mp heq).2.ge
    · rw [← hstable, List.filter_append, List.filter_eq_nil_iff.mpr, List.nil_append]
      · simp
      · intro y hy
        simpa using fun heq => hother y hy ((rank_eq_rank.mp heq).1.trans hkey)
  -- a latest entry is unique, and the first one is a latest
  refine ⟨hlatest, fun h => ?_⟩
  have hmem : kv ∈ entries := hperm.symm.subset (List.mem_of_mem_filter (List.mem_of_head? h.first))
  have hhas : hasKey key kv = true := by simp [hasKey, h.userKey]
  obtain ⟨x, hx⟩ := Option.isSome_iff_exists.mp (List.find?_isSome.mpr ⟨kv, hmem, hhas⟩)
  rw [hx, (hlatest hx).unique h]

theorem filter_merge_ok (h : ∀ s ∈ sources, RankSorted s)
    (hmerge : merge compareItems (sources.map (·.map .ok)) = entries.map .ok) (rank : Rank) :
    (entries.filter fun kv => kv.key.rank = rank) = sources.flatten.filter fun kv => kv.key.rank
    = rank := by
  have hfilter :=
    filter_mergeLoop compareItems_eq_lt_iff (sorted_map_ok h) (Nat.le_refl _) (rank : WithBot Rank)
  rw [← merge, hmerge, ← List.map_flatten, List.filter_map, List.filter_map] at hfilter
  have hinj := List.map_injective_iff.mpr (fun _ _ => Except.ok.inj) hfilter
  simpa [itemRank, Function.comp_def] using hinj

/-- **Merge and version resolution are exact.**  The merge is a sorted permutation of the
    sources' entries, equal ones in source order; the resolver then gives each user key once,
    in ascending order, with the value of its latest entry if that is a put. -/
theorem merge_resolves (sources : List (List KeyValue)) (h : ∀ s ∈ sources, RankSorted s) :
    ∃ (entries : List KeyValue) (pairs : List (Bytes × Bytes)),
      merge compareItems (sources.map (·.map .ok)) = entries.map .ok ∧
      entries.Perm sources.flatten ∧ RankSorted entries ∧
      (∀ rank, (entries.filter fun kv => kv.key.rank = rank)
        = sources.flatten.filter fun kv => kv.key.rank = rank) ∧
      resolveVersions none (merge compareItems (sources.map (·.map .ok))) = pairs.map .ok ∧
      pairs.Pairwise (fun a b => a.1 < b.1) ∧
      ∀ key value, (key, value) ∈ pairs ↔ ∃ kv, Latest sources key kv ∧ kv.key.op = .put
        ∧ kv.value = value := by
  obtain ⟨entries, hmerge, hperm, hsorted⟩ := merge_ok h
  obtain ⟨pairs, hpairs, hasc, hmem⟩ := resolveVersions_ok none hsorted.keySorted (by simp)
  have hstable := filter_merge_ok h hmerge
  refine ⟨entries, pairs, hmerge, hperm, hsorted, hstable, by rw [hmerge, hpairs], hasc,
    fun key value => ?_⟩
  rw [hmem, and_iff_right (Option.some_ne_none key).symm]
  simp only [find_iff_latest hperm hsorted hstable]

/-- A put that two sources have, over a delete that one of them has. -/
theorem merge_resolves_shared :
    ∃ pairs : List (Bytes × Bytes), resolveVersions none (merge compareItems
        ([[⟨⟨[1], 2, .put⟩, [7]⟩], [⟨⟨[1], 2, .put⟩, [7]⟩, ⟨⟨[1], 1, .delete⟩, []⟩]].map
          (·.map .ok))) = pairs.map .ok ∧
      ([1], [7]) ∈ pairs := by
  have hsorted :
      ∀ s ∈ ([[⟨⟨[1], 2, .put⟩, [7]⟩], [⟨⟨[1], 2, .put⟩, [7]⟩, ⟨⟨[1], 1, .delete⟩, []⟩]] :
      List (List KeyValue)), RankSorted s := by
    simp [RankSorted, InternalKey.rank, Prod.Lex.toLex_le_toLex]
  obtain ⟨-, pairs, -, -, -, -, hpairs, -, hmem⟩ := merge_resolves _ hsorted
  refine ⟨pairs, hpairs, (hmem _ _).mpr ⟨⟨⟨[1], 2, .put⟩, [7]⟩, ⟨rfl, ?_, ?_⟩, rfl, rfl⟩⟩
  · simp
  · simp [InternalKey.rank]

end StrataDb.Lsm
