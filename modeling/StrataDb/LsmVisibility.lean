import StrataDb.LsmCrash

/-!
# What readers see of a flush, and which ranges they may ask for

A flush changes no lookup and no scan (`flush_invisible`), as long as there is a level to read. A
scan at an old version is repeatable. A scan panics exactly when its range is the wrong way around
and the memtable has an entry.
-/

namespace StrataDb.Lsm

open ByteCodec OrderedMap Runs
open Crc (crc32)
open FastBloom (full)

/-! ### Flushes -/

section Flush

variable {B : FastBloom} {crc : Bytes → UInt32} {ws : List Write} {t t' : Lsm}

theorem pairs_unique {β : Type} {ps qs : List (Bytes × β)}
    (hps : ps.Pairwise (fun a b => a.1 < b.1)) (hqs : qs.Pairwise (fun a b => a.1 < b.1))
    (hmem : ∀ p, p ∈ ps ↔ p ∈ qs) : ps = qs := by
  have hnodup : ∀ {xs : List (Bytes × β)}, xs.Pairwise (fun a b => a.1 < b.1) → xs.Nodup := by
    intro xs hxs
    refine hxs.imp ?_
    rintro a _ hlt rfl
    exact lt_irrefl _ hlt
  have hperm : ps.Perm qs := (List.perm_ext_iff_of_nodup (hnodup hps) (hnodup hqs)).mpr hmem
  exact hperm.eq_of_pairwise (fun a b _ _ hab hba => absurd (hab.trans hba) (lt_irrefl _)) hps hqs

theorem Serves.agree (h : Serves B ws t) (h' : Serves B ws t') :
    (∀ key, t'.get B key = t.get B key) ∧ ∀ start stop maxSeq, reversed start stop = false →
      t'.scanAt B start stop maxSeq = t.scanAt B start stop maxSeq := by
  refine ⟨fun key => (h'.get key).trans (h.get key).symm, fun start stop maxSeq hrange => ?_⟩
  obtain ⟨ps, hscan, hps, hmem⟩ := h.scan start stop maxSeq hrange
  obtain ⟨qs, hscan', hqs, hmem'⟩ := h'.scan start stop maxSeq hrange
  rw [hscan, hscan', pairs_unique hqs hps fun p => (hmem' p.1 p.2).trans (hmem p.1 p.2).symm]

/-- **A flush is invisible**: it changes no lookup and no scan. -/
theorem flush_invisible {config : LsmConfig} {capacity : Nat} {t₀ : Lsm} {as : List Attempt}
    (hlevels : 0 < config.numLevels % 2 ^ 32)
    (hopen : withMemtable crc {} config (.withCapacity capacity) = .ok t₀)
    (hrun : Run (AttemptStep B crc) t₀ as t) (hfits : LsmFits B t .flush)
    (hflush : t.flush B crc = .ok t') :
    (∀ key, t'.get B key = t.get B key) ∧ ∀ start stop maxSeq, reversed start stop = false →
      t'.scanAt B start stop maxSeq = t.scanAt B start stop maxSeq := by
  obtain ⟨lo, hinv⟩ := attemptInv_of_run hlevels hopen hrun
  obtain ⟨lo', hinv'⟩ := hinv.flush hfits hflush
  exact hinv.toLayered.serves.agree hinv'.toLayered.serves

/-- **A scan at a version that was reached is repeatable**: no write, refusal, flush,
    checkpoint, eviction or reopen that comes later changes it. -/
theorem snapshot_scans_repeat {config : LsmConfig} {capacity : Nat} {t₀ : Lsm}
    {as later : List Attempt} (hlevels : 0 < config.numLevels % 2 ^ 32)
    (hopen : withMemtable crc {} config (.withCapacity capacity) = .ok t₀)
    (hrun : Run (AttemptStep B crc) t₀ as t) (hlater : Run (AttemptStep B crc) t later t')
    {maxSeq : UInt64} (hseq : maxSeq ≤ t.seq) {start stop : Bound Bytes}
    (hrange : reversed start stop = false) :
    t'.scanAt B start stop maxSeq = t.scanAt B start stop maxSeq := by
  have hinv := attemptInv_of_run hlevels hopen hrun
  obtain ⟨lo', hinv'⟩ : AttemptInv B crc (as ++ later) t' := by
    refine hlater.history (P := fun later t' => AttemptInv B crc (as ++ later) t') ?_ ?_
    · rwa [List.append_nil]
    · intro later t a t' h hstep
      rw [← List.append_assoc]
      exact h.step hstep
  obtain ⟨lo, hinv⟩ := hinv
  -- later writes are behind the version
  have hlength : maxSeq.toNat ≤ (accepted as).length := hinv.seq ▸ UInt64.le_iff_toNat_le.mp hseq
  have htake : (accepted (as ++ later)).take maxSeq.toNat = (accepted as).take maxSeq.toNat := by
    rw [accepted, List.filterMap_append, writes, List.filterMap_append]
    exact List.take_append_of_le_length hlength
  obtain ⟨ps, hscan, hps, hmem⟩ := hinv.toLayered.serves.scan start stop maxSeq hrange
  obtain ⟨qs, hscan', hqs, hmem'⟩ := hinv'.toLayered.serves.scan start stop maxSeq hrange
  rw [htake] at hmem'
  rw [hscan, hscan', pairs_unique hqs hps fun p => (hmem' p.1 p.2).trans (hmem p.1 p.2).symm]

end Flush

/-- A tree with one level. -/
theorem flush_invisible_one_level :
    ∃ t₀ t t', withMemtable crc32 {} smallPages (.withCapacity 16) = .ok t₀ ∧
    Run (AttemptStep full crc32) t₀ [.call (.put [1] [2])] t ∧
    t.flush full crc32 = .ok t' ∧ ∀ key, t'.get full key = t.get full key := by
  obtain ⟨t₀, t, h⟩ := exists_written
  obtain ⟨t', hflush⟩ : ∃ t', t.flush full crc32 = .ok t' :=
    ⟨_, flush_of_entries (by simp [h.entries]) (by rw [h.id]; decide +kernel)
      (length_flushBytes h.entries h.id h.config)⟩
  exact ⟨t₀, t, t', h.create, h.run, hflush,
    (flush_invisible (by decide) h.create h.run h.fits hflush).1⟩

/-- A put and a flush. -/
theorem snapshot_scans_repeat_flush :
    ∃ t₀ t t', withMemtable crc32 {} smallPages (.withCapacity 16) = .ok t₀ ∧
    Run (AttemptStep full crc32) t₀ [.call (.put [1] [2])] t ∧
    Run (AttemptStep full crc32) t [.call .flush] t' ∧
    t'.scanAt full .unbounded .unbounded t.seq = t.scanAt full .unbounded .unbounded t.seq := by
  obtain ⟨t₀, t, h⟩ := exists_written
  obtain ⟨t', hflush⟩ : ∃ t', t.flush full crc32 = .ok t' :=
    ⟨_, flush_of_entries (by simp [h.entries]) (by rw [h.id]; decide +kernel)
      (length_flushBytes h.entries h.id h.config)⟩
  have hlater : Run (AttemptStep full crc32) t ([] ++ [.call .flush]) t' :=
    .snoc .nil (.call ⟨.flush hflush, h.fits⟩ (by simp))
  exact ⟨t₀, t, t', h.create, h.run, hlater, snapshot_scans_repeat (by decide) h.create h.run hlater
    le_rfl rfl⟩

/-- **Without levels a flush hides what it writes.** -/
theorem flush_without_levels :
    ∃ t₀ t t', withMemtable crc32 {} (.leveled 0) (.withCapacity 16) = .ok t₀ ∧
    t₀.put crc32 [1] [2] = (.ok (), t) ∧ t.flush full crc32 = .ok t' ∧
    t.get full [1] = .ok (some [2]) ∧ t'.get full [1] = .ok none := by
  obtain ⟨t₀, t₁, t₂, h⟩ := exists_flushed full crc32 (.leveled 0) 16 [1] [2] (by decide +kernel)
  refine ⟨t₀, t₁, t₂, h.create, h.put, h.flush, ?_, h.get_none rfl [1]⟩
  have hseq : t₁.seq = 1 := by
    rcases flush_ok h.flush with ⟨-, rfl⟩ | ⟨-, -, sstables, -, rfl⟩
    · exact h.seq
    · exact h.seq
  rw [Lsm.get, getAt, BTreeMemtable.scanAt_eq _ (reversed_self _), h.before.1, hseq]
  rfl

section Scan

variable {B : FastBloom} {t : Lsm} {start stop : Bound Bytes} {maxSeq : UInt64}

/-- **A memtable scan** panics exactly when the range is the wrong way around and there is
    an entry; else it gives the visible entries of the range. -/
theorem BTreeMemtable.scanAt_cases (m : BTreeMemtable) (start stop : Bound Bytes)
    (maxSeq : UInt64) :
    (reversed start stop = true ∧ m.entries ≠ [] ∧ m.scanAt start stop maxSeq = none) ∨
      ((reversed start stop = false ∨ m.entries = []) ∧
        m.scanAt start stop maxSeq = some (m.entries.filter (visible start stop maxSeq))) := by
  cases hrev : reversed start stop with
  | false => exact Or.inr ⟨Or.inl rfl, m.scanAt_eq hrev maxSeq⟩
  | true =>
    have hempty : m.store.entries.isEmpty = true ↔ m.entries = [] := by
      rw [List.isEmpty_iff, BTreeMemtable.entries, List.map_eq_nil_iff]
    by_cases hnil : m.entries = []
    · exact Or.inr ⟨Or.inr hnil, m.scanAt_fine (Or.inr hnil) maxSeq⟩
    · refine Or.inl ⟨rfl, hnil, ?_⟩
      rw [BTreeMemtable.scanAt, OrderedMap.range, if_neg fun h => hnil (hempty.mp h),
        reversed_internal, hrev]
      rfl

theorem mem_drain {pulls : List (Except ReadError (List KeyValue))} {kv : KeyValue}
    (h : .ok kv ∈ drain pulls) : ∃ entries, .ok entries ∈ pulls ∧ kv ∈ entries := by
  induction pulls with
  | nil => cases h
  | cons pull pulls ih =>
    cases pull with
    | error e => cases List.mem_singleton.mp h
    | ok entries =>
      rcases List.mem_append.mp h with h | h
      · obtain ⟨kv', hkv', heq⟩ := List.mem_map.mp h
        exact ⟨entries, List.mem_cons_self, Except.ok.inj heq ▸ hkv'⟩
      · obtain ⟨entries', hpull, hkv⟩ := ih h
        exact ⟨entries', List.mem_cons_of_mem _ hpull, hkv⟩

theorem inBounds_of_mem_scan {table : SsTable B} {cache : SstPageCache} {dir : SstDir}
    {kv : KeyValue} (h : .ok kv ∈ table.scan cache dir start stop maxSeq) :
    inBounds start stop kv.key.userKey = true := by
  obtain ⟨entries, hpull, hkv⟩ := mem_drain h
  -- every pull that succeeds was filtered
  have hblocks : ∀ blocks :
      List BlockMeta, Except.ok entries ∈ (blocks.filter (blockOverlaps · start stop)).map
      (table.loadEntries cache dir start stop maxSeq) → inBounds start stop kv.key.userKey
        = true := by
    intro blocks hmem
    obtain ⟨m, -, hload⟩ := List.mem_map.mp hmem
    obtain ⟨all, -, heq⟩ := bind_eq_ok.mp hload
    obtain rfl := Except.ok.inj heq
    exact (Bool.and_eq_true_iff.mp (List.mem_filter.mp hkv).2).2
  unfold SsTable.pulls at hpull
  cases hindex : table.index with
  | inline blocks =>
    rw [hindex] at hpull
    exact hblocks blocks hpull
  | sharded refs =>
    rw [hindex] at hpull
    obtain ⟨cref, -, hpull⟩ := List.mem_flatMap.mp hpull
    cases hload : (table.loadChild cache dir cref).mapError LsmError.toRead with
    | error e =>
      rw [hload] at hpull
      cases List.mem_singleton.mp hpull
    | ok blocks =>
      rw [hload] at hpull
      exact hblocks blocks hpull

theorem mem_resolveVersions {last : Option Bytes} {items : List (Except ReadError KeyValue)}
    {p : Bytes × Bytes} (h : .ok p ∈ resolveVersions last items) :
    ∃ kv, .ok kv ∈ items ∧ kv.key.userKey = p.1 := by
  induction items generalizing last with
  | nil => cases h
  | cons item items ih =>
    have hrest : ∀ {last}, .ok p ∈ resolveVersions last items →
        ∃ kv, .ok kv ∈ item :: items ∧ kv.key.userKey = p.1 := by
      intro last hmem
      obtain ⟨kv, hkv, hkey⟩ := ih hmem
      exact ⟨kv, List.mem_cons_of_mem _ hkv, hkey⟩
    cases item with
    | error e =>
      rcases List.mem_cons.mp h with h | h
      · cases h
      · exact hrest h
    | ok kv =>
      rw [resolveVersions] at h
      split_ifs at h
      · exact hrest h
      · cases hop : kv.key.op with
        | put =>
          rw [hop] at h
          rcases List.mem_cons.mp h with h | h
          · obtain rfl := Except.ok.inj h
            exact ⟨kv, List.mem_cons_self, rfl⟩
          · exact hrest h
        | delete =>
          rw [hop] at h
          exact hrest h

/-- **A scan yields keys of its range**, whatever the state of the tree. -/
theorem inBounds_of_scanAt {items : List (Except LsmError (Bytes × Bytes))}
    (h : t.scanAt B start stop maxSeq = .ok items) {p : Bytes × Bytes} (hp : .ok p ∈ items) :
    inBounds start stop p.1 = true := by
  rw [scanAt] at h
  rcases t.mem.inner.scanAt_cases start stop maxSeq with ⟨-, -, hmem⟩ | ⟨-, hmem⟩
  · rw [hmem] at h
    cases h
  · rw [hmem] at h
    obtain rfl := Except.ok.inj h
    obtain ⟨item, hitem, heq⟩ := List.mem_map.mp hp
    obtain rfl := mapError_eq_ok.mp heq
    obtain ⟨kv, hkv, hkey⟩ := mem_resolveVersions hitem
    obtain ⟨source, hsource, hkv⟩ := Merge.mem_of_mem_merge compareItems_eq_lt_iff hkv
    rw [← hkey]
    -- the memtable filters by the range, and so does each table
    rcases List.mem_cons.mp hsource with rfl | hsource
    · obtain ⟨kv', hkv', heq⟩ := List.mem_map.mp hkv
      obtain rfl := Except.ok.inj heq
      exact (Bool.and_eq_true_iff.mp (List.mem_filter.mp hkv').2).2
    · obtain ⟨id, -, hid⟩ := List.mem_filterMap.mp hsource
      rw [tableSource] at hid
      cases hopen : SsTable.open B t.cache t.sstables id with
      | error e =>
        rw [hopen] at hid
        obtain rfl := Option.some.inj hid
        cases List.mem_singleton.mp hkv
      | ok table =>
        rw [hopen] at hid
        dsimp only at hid
        split_ifs at hid
        obtain rfl := Option.some.inj hid
        exact inBounds_of_mem_scan hkv

theorem scanAt_cases (t : Lsm) (start stop : Bound Bytes) (maxSeq : UInt64) :
    (reversed start stop = true ∧ t.mem.inner.entries ≠ [] ∧ t.scanAt B start stop maxSeq
        = .error (.panicked "range start is greater than range end in BTreeMap")) ∨
      ((reversed start stop = false ∨ t.mem.inner.entries = []) ∧
        ∃ items, t.scanAt B start stop maxSeq = .ok items ∧
          ∀ p, .ok p ∈ items → inBounds start stop p.1 = true) := by
  rcases t.mem.inner.scanAt_cases start stop maxSeq with ⟨hrev, hne, hmem⟩ | ⟨hfine, hmem⟩
  · refine Or.inl ⟨hrev, hne, ?_⟩
    rw [scanAt, hmem]
  · obtain ⟨items, hitems⟩ : ∃ items, t.scanAt B start stop maxSeq = .ok items := by
      rw [scanAt, hmem]
      exact ⟨_, rfl⟩
    exact Or.inr ⟨hfine, items, hitems, fun p hp => inBounds_of_scanAt hitems hp⟩

end Scan

end StrataDb.Lsm
