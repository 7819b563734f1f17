import StrataDb.LsmReads

/-!
# What every operation of the tree keeps

`Inv`: the layers make up the history, the active manifest file folds to the version, and the
journal holds the records the memtable was made from. After a refused write replaying the journal
ends in the same refusal (`LogState.stuck`), until a flush truncates it.
-/

namespace StrataDb.Lsm

open ByteCodec OrderedMap Runs
open Journal (tornTail_nil)
open BTreeMemtable (clear_eq maxSeq mem_entries_put put_error put_ok scanAll_eq withCapacity)

/-! ### Replaying a stretch of the history -/

variable {m : BTreeMemtable}

theorem replayAll_entries {m' : BTreeMemtable} {records : List KeyValue}
    (h : replayAll m records = .ok m')
    (hdistinct : records.Pairwise (fun a b => a.key.rank ≠ b.key.rank))
    (hfresh : ∀ r ∈ records, ∀ x ∈ m.entries, x.key.rank ≠ r.key.rank) :
    (∀ kv, kv ∈ m'.entries ↔ kv ∈ m.entries ∨ kv ∈ records) ∧ m'.capacity = m.capacity := by
  induction records using List.reverseRecOn generalizing m' with
  | nil =>
    obtain rfl := Except.ok.inj h
    exact ⟨by simp, rfl⟩
  | append_singleton records r ih =>
    rw [replayAll_snoc] at h
    obtain ⟨m₁, h₁, hput⟩ := bind_eq_ok.mp h
    obtain ⟨hrecords, -, hr⟩ := List.pairwise_append.mp hdistinct
    obtain ⟨hmem, hcap⟩ := ih h₁ hrecords (fun x hx => hfresh x (List.mem_append_left _ hx))
    refine ⟨?_, (put_ok hput).2.1.trans hcap⟩
    intro kv
    rw [mem_entries_put hput, hmem, List.mem_append, List.mem_singleton]
    · tauto
    · intro x hx
      rcases (hmem x).mp hx with hx | hx
      · exact hfresh r (by simp) x hx
      · exact hr x hx r (List.mem_singleton_self r)

variable {ws : List Write}

theorem slice_ranks (hlen : ws.length < 2 ^ 64) (lo hi : Nat) :
    (slice ws lo hi).Pairwise (fun a b => a.key.rank ≠ b.key.rank) := by
  refine (slice_ascending hlen lo hi).imp ?_
  intro a b hlt heq
  rw [(InternalKey.rank_eq_rank.mp heq).2] at hlt
  exact lt_irrefl _ hlt

theorem covers_of_replayAll (hlen : ws.length < 2 ^ 64) {lo hi capacity : Nat}
    (h : replayAll (.withCapacity capacity) (slice ws lo hi) = .ok m) :
    Covers m.entries ws lo hi ∧ m.capacity = capacity := by
  obtain ⟨hmem, hcap⟩ := replayAll_entries h (slice_ranks hlen lo hi) (by simp)
  exact ⟨⟨m.sorted.imp le_of_lt, fun kv => by simp [hmem kv]⟩, hcap⟩

theorem Covers.put {m m' : BTreeMemtable} {ws : List Write} {lo : Nat}
    (h : Covers m.entries ws lo ws.length) (hlo : lo ≤ ws.length) (hlen : ws.length + 1 < 2 ^ 64)
    {w : Write} (hput : m.put (logEntry ws.length w).key (logEntry ws.length w).value = .ok m') :
    Covers m'.entries (ws ++ [w]) lo (ws ++ [w]).length := by
  refine ⟨m'.sorted.imp le_of_lt, ?_⟩
  intro kv
  rw [mem_entries_put hput, List.length_append, List.length_singleton, slice_last ws w hlo,
    List.mem_append, List.mem_singleton, h.mem, or_comm]
  intro x hx heq
  have hseq := congrArg UInt64.toNat (InternalKey.rank_eq_rank.mp heq).2
  have hle := seq_le_of_mem_slice (by omega) ((h.mem x).mp hx)
  rw [toNat_seq_logEntry hlen] at hseq
  omega

/-! ### The sequence number after a reopen -/

theorem foldl_max_le {seqs : List UInt64} {a b : UInt64} (ha : a ≤ b) (h : ∀ s ∈ seqs, s ≤ b) :
    seqs.foldl max a ≤ b := by
  induction seqs generalizing a with
  | nil => exact ha
  | cons s seqs ih =>
    exact ih (max_le ha (h s List.mem_cons_self)) (fun x hx => h x (List.mem_cons_of_mem _ hx))

theorem init_le_foldl_max (seqs : List UInt64) (a : UInt64) : a ≤ seqs.foldl max a := by
  induction seqs generalizing a with
  | nil => exact le_refl a
  | cons s seqs ih => exact (le_max_left a s).trans (ih (max a s))

theorem le_foldl_max {seqs : List UInt64} {s : UInt64} (h : s ∈ seqs) (a : UInt64) :
    s ≤ seqs.foldl max a := by
  induction seqs generalizing a with
  | nil => cases h
  | cons x seqs ih =>
    rcases List.mem_cons.mp h with rfl | h
    · exact (le_max_right a s).trans (init_le_foldl_max seqs (max a s))
    · exact ih h (max a x)

theorem toNat_resumed_seq {lo : Nat} (hlen : ws.length < 2 ^ 64)
    (h : Covers m.entries ws lo ws.length) {lastSeq : UInt64} (hlo : lo ≤ lastSeq.toNat)
    (hle : lastSeq.toNat ≤ ws.length) : (max lastSeq m.maxSeq).toNat = ws.length := by
  have hmax : (UInt64.ofNat ws.length).toNat = ws.length := UInt64.toNat_ofNat_of_lt' hlen
  suffices hseq : max lastSeq m.maxSeq = UInt64.ofNat ws.length by rw [hseq, hmax]
  apply le_antisymm
  · refine max_le ?_ ?_
    · rwa [UInt64.le_iff_toNat_le, hmax]
    · rw [maxSeq, scanAll_eq]
      apply foldl_max_le (zero_le_seq _)
      intro s hs
      obtain ⟨kv, hkv, rfl⟩ := List.mem_map.mp hs
      rw [UInt64.le_iff_toNat_le, hmax]
      exact seq_le_of_mem_slice hlen ((h.mem kv).mp hkv)
  · rcases Nat.eq_or_lt_of_le hle with heq | hlt
    · refine le_trans ?_ (le_max_left _ _)
      rw [UInt64.le_iff_toNat_le, hmax, heq]
    · -- the last write is still in the memtable
      refine le_trans ?_ (le_max_right _ _)
      obtain ⟨n, hn⟩ : ∃ n, ws.length = n + 1 := ⟨ws.length - 1, by omega⟩
      have hget : ws[n]? = some (ws.get ⟨n, by omega⟩) := List.getElem?_eq_getElem (by omega)
      have hlast : logEntry n (ws.get ⟨n, by omega⟩) ∈ m.entries :=
        (h.mem _).mpr (mem_slice.mpr ⟨n, _, by omega, by omega, hget, rfl⟩)
      rw [maxSeq, scanAll_eq, hn]
      exact le_foldl_max (List.mem_map_of_mem (f := fun kv => kv.key.seq) hlast) 0

/-! ### The invariant -/

/-- What the journal's records are to the memtable: its records, in the order of the
    writes; or, after a refusal, a sequence that is refused again when it is replayed. -/
inductive LogState (ws : List Write) (lo : Nat) (m : BTreeMemtable) : List KeyValue → Bool → Prop
  | kept (h : replayAll (.withCapacity m.capacity) (slice ws lo ws.length) = .ok m) :
      LogState ws lo m (slice ws lo ws.length) false
  | stuck {records : List KeyValue}
      (h : replayAll (.withCapacity m.capacity) records = .error .storeFull)
      (hne : m.entries ≠ []) :
      LogState ws lo m records true

/-- The tree, its history and its disk; `refused` says whether a write was refused
    since the journal was last truncated. -/
structure Inv (B : FastBloom) (crc : Bytes → UInt32) (ws : List Write) (lo : Nat) (refused : Bool)
    (t : Lsm) : Prop extends Layered B ws lo t where
  leveled : 0 < t.config.numLevels % 2 ^ 32
  manifest : t.manifest.Sound crc
  ids : ∀ id ∈ t.manifest.version.liveFiles, id < t.manifest.version.nextSstId
  journal : ∃ records, t.mem.Logs crc records ∧ LogState ws lo t.mem.inner records refused

section Steps

variable {B : FastBloom} {crc : Bytes → UInt32} {ws : List Write} {lo : Nat} {refused : Bool}
  {t t' : Lsm}

theorem record_eq_logEntry (hseq : t.seq.toNat = ws.length) (w : Write) :
    t.record w.1 (w.2.getD []) (opOf w.2) = logEntry ws.length w := by
  have hnext : t.seq + 1 = UInt64.ofNat (ws.length + 1) := by
    rw [← hseq, UInt64.ofNat_add, UInt64.ofNat_toNat]
    rfl
  simp only [record, logEntry, hnext]

theorem length_lt_of_seq (hseq : t.seq.toNat = ws.length) (hmax : t.seq ≠ U64_MAX) :
    ws.length + 1 < 2 ^ 64 := by
  have hlt := t.seq.toNat_lt
  have hU64 : U64_MAX.toNat = 2 ^ 64 - 1 := UInt64.toNat_ofNat_of_lt' (by decide)
  have hne : t.seq.toNat ≠ U64_MAX.toNat := fun h => hmax (UInt64.toNat_inj.mp h)
  omega

theorem Layered.write (h : Layered B ws lo t) {w : Write}
    (hw : t.write crc w.1 (w.2.getD []) (opOf w.2) = (.ok (), t')) :
    Layered B (ws ++ [w]) lo t' := by
  obtain ⟨hmax, inner, hput, rfl⟩ := write_ok hw
  have hlen := length_lt_of_seq h.seq hmax
  have hlo : lo ≤ ws.length := h.overlap.trans h.runs.le_length
  rw [record_eq_logEntry h.seq] at hput ⊢
  refine ⟨by simpa using hlen, ?_, h.levels, h.runs.snoc_write w, h.overlap,
    h.mem.put hlo hlen (show t.mem.inner.put (logEntry ws.length w).key _ = .ok inner from hput),
    h.cache⟩
  rw [UInt64.toNat_add, h.seq, List.length_append, List.length_singleton]
  exact Nat.mod_eq_of_lt hlen

theorem Layered.refuse (h : Layered B ws lo t) {key value : Bytes} {op : OpType} {f : Fault}
    (hw : t.write crc key value op = (.error f, t')) : Layered B ws lo t' := by
  by_cases hmax : t.seq = U64_MAX
  · rw [Lsm.write, if_pos hmax] at hw
    obtain ⟨-, rfl⟩ := Prod.mk.inj hw
    exact h
  · rcases write_cases crc hmax key value op with ⟨inner, -, hwrite⟩ | ⟨-, hwrite⟩
    · cases congrArg Prod.fst (hw.symm.trans hwrite)
    · obtain ⟨-, rfl⟩ := Prod.mk.inj (hw.symm.trans hwrite)
      exact ⟨h.length, h.seq, h.levels, h.runs, h.overlap, h.mem, h.cache⟩

theorem Inv.write (h : Inv B crc ws lo refused t) {w : Write}
    (hsmall : (logEntry ws.length w).encode.length < 2 ^ 32)
    (hw : t.write crc w.1 (w.2.getD []) (opOf w.2) = (.ok (), t')) :
    Inv B crc (ws ++ [w]) lo refused t' := by
  have hlayered := h.toLayered.write hw
  obtain ⟨hmax, inner, hput, rfl⟩ := write_ok hw
  have hlo : lo ≤ ws.length := h.overlap.trans h.runs.le_length
  rw [record_eq_logEntry h.seq] at hput hlayered ⊢
  have hput' : t.mem.inner.put (logEntry ws.length w).key (logEntry ws.length w).value
    = .ok inner :=
    hput
  obtain ⟨records, hlogs, hstate⟩ := h.journal
  refine ⟨hlayered, h.leveled, h.manifest, h.ids, records ++ [logEntry ws.length w],
    hlogs.append hsmall inner, ?_⟩
  have hcap := (put_ok hput').2.1
  -- a record behind a refused one is never replayed
  cases hstate with
  | kept hreplay =>
    have hall : slice (ws ++ [w]) lo (ws ++ [w]).length =
        slice ws lo ws.length ++ [logEntry ws.length w] := by
      rw [List.length_append, List.length_singleton, slice_last ws w hlo]
    rw [← hall]
    refine .kept ?_
    show replayAll (.withCapacity inner.capacity) _ = _
    rw [hall, replayAll_snoc, hcap, hreplay]
    exact hput'
  | stuck hreplay hne =>
    refine .stuck ?_ ?_
    · show replayAll (.withCapacity inner.capacity) _ = _
      rw [replayAll_snoc, hcap, hreplay]
      rfl
    · show inner.entries ≠ []
      refine List.ne_nil_of_mem ((hlayered.mem.mem (logEntry ws.length w)).mpr ?_)
      rw [List.length_append, List.length_singleton, slice_last ws w hlo]
      simp

/-- **A refused write** leaves the history alone, and its record in the journal. -/
theorem Inv.refuse (h : Inv B crc ws lo refused t) {w : Write} {e : LsmError}
    (hsmall : (logEntry ws.length w).encode.length < 2 ^ 32)
    (hw : t.write crc w.1 (w.2.getD []) (opOf w.2) = (.error (.error e), t')) :
    Inv B crc ws lo true t' := by
  have hlayered := h.toLayered.refuse hw
  obtain ⟨hput, rfl⟩ := write_error hw
  rw [record_eq_logEntry h.seq] at hput hlayered ⊢
  have hput' : t.mem.inner.put (logEntry ws.length w).key (logEntry ws.length w).value =
      .error .storeFull := hput
  refine ⟨hlayered, h.leveled, h.manifest, h.ids, ?_⟩
  obtain ⟨records, hlogs, hstate⟩ := h.journal
  refine ⟨records ++ [logEntry ws.length w], hlogs.append hsmall t.mem.inner, .stuck ?_ ?_⟩
  · show replayAll (.withCapacity t.mem.inner.capacity) _ = _
    rw [replayAll_snoc]
    cases hstate with
    | kept hreplay =>
      rw [hreplay]
      exact hput'
    | stuck hreplay hne =>
      rw [hreplay]
      rfl
  · exact (put_error hput').2

theorem Inv.not_accepted (h : Inv B crc ws lo refused t) {w : Write} {f : Fault}
    (hsmall : (logEntry ws.length w).encode.length < 2 ^ 32)
    (hw : t.write crc w.1 (w.2.getD []) (opOf w.2) = (.error f, t')) :
    ∃ refused', Inv B crc ws lo refused' t' := by
  cases f with
  | error e => exact ⟨true, h.refuse hsmall hw⟩
  | panicked msg =>
    by_cases hmax : t.seq = U64_MAX
    · rw [Lsm.write, if_pos hmax] at hw
      obtain ⟨-, rfl⟩ := Prod.mk.inj hw
      exact ⟨refused, h⟩
    · rcases write_cases crc hmax w.1 (w.2.getD []) (opOf w.2) with ⟨inner, -, hwrite⟩ | ⟨-, hwrite⟩
      all_goals cases congrArg Prod.fst (hw.symm.trans hwrite)

theorem length_encode_flushEdit (id : SsTableId) (seq : UInt64) :
    (flushEdit id seq).encode.length < 2 ^ 32 := by
  simp [flushEdit, ManifestEdit.encode, ManifestOp.encode]

theorem apply_flushEdit (v : Version) (id : SsTableId) (seq : UInt64) :
    v.apply (flushEdit id seq) =
      { runs := v.runs ++ [flushedRun id], nextSstId := id + 1, lastSeq := seq } := rfl

theorem lt_succ_of_ne_max {id : UInt64} (h : id ≠ U64_MAX) : id < id + 1 := by
  have hlt := id.toNat_lt
  have hU64 : U64_MAX.toNat = 2 ^ 64 - 1 := UInt64.toNat_ofNat_of_lt' (by decide)
  have hne : id.toNat ≠ U64_MAX.toNat := fun heq => h (UInt64.toNat_inj.mp heq)
  have hone : (1 : UInt64).toNat = 1 := rfl
  rw [UInt64.lt_iff_toNat_lt, UInt64.toNat_add, hone, Nat.mod_eq_of_lt (by omega)]
  omega

/-- **A flush** moves the memtable into a table and empties the journal. -/
theorem Inv.flush (h : Inv B crc ws lo refused t)
    (hfits : t.mem.inner.entries ≠ [] → TableFits B t.manifest.version.nextSstId
      t.config.flushTable t.mem.inner.entries)
    (hflush : t.flush B crc = .ok t') : ∃ lo', Inv B crc ws lo' false t' := by
  rcases flush_ok hflush with ⟨hempty, rfl⟩ | ⟨hne, hmax, sstables, hwrite, rfl⟩
  · obtain ⟨records, hlogs, hstate⟩ := h.journal
    cases hstate with
    | kept hreplay => exact ⟨lo, h.toLayered, h.leveled, h.manifest, h.ids, _, hlogs, .kept hreplay⟩
    | stuck _ hne => exact absurd hempty hne
  · obtain ⟨hstored, hothers⟩ := stored_write (hfits hne) hwrite
    -- the new file has an id of its own
    have hfresh : ∀ id ∈ t.manifest.version.liveFiles, sstables id = t.sstables id := by
      intro id hid
      exact hothers id (ne_of_lt (h.ids id hid))
    have hlive : ∀ id, id ∈ (t.manifest.commit crc
        (flushEdit t.manifest.version.nextSstId t.seq)).version.liveFiles ↔
        id ∈ t.manifest.version.liveFiles ∨ id = t.manifest.version.nextSstId := by
      intro id
      simp [ManifestManager.commit, apply_flushEdit, Version.liveFiles, flushedRun]
    obtain ⟨records, hlogs, -⟩ := h.journal
    refine ⟨ws.length, ⟨h.length, h.seq, fun _ => h.leveled, ?_, ?_, ?_, ?_⟩, h.leveled, ?_, ?_, [],
      hlogs.clear, ?_⟩
    · have hruns := RunsCover.snoc (h.runs.congr hfresh) h.overlap h.runs.le_length (Nat.le_refl _)
        hstored h.mem
      rwa [← h.seq] at hruns
    · exact h.seq.ge
    · exact ⟨List.Pairwise.nil, fun kv => by simp [slice, Journaled.clear, clear_eq]⟩
    · exact h.cache.mono hfresh (fun id hid => (hlive id).mpr (Or.inl hid))
    · exact h.manifest.commit (length_encode_flushEdit _ _)
    · intro id hid
      rcases (hlive id).mp hid with hid | rfl
      · exact (h.ids id hid).trans (lt_succ_of_ne_max hmax)
      · exact lt_succ_of_ne_max hmax
    · have hnil : slice ws ws.length ws.length = [] := by simp [slice]
      have hstate : LogState ws ws.length t.mem.clear.inner (slice ws ws.length ws.length)
        false := by
        refine .kept ?_
        rw [hnil]
        rfl
      rwa [hnil] at hstate

theorem Inv.checkpoint (h : Inv B crc ws lo refused t)
    (hsize : t.manifest.version.toSnapshot.encode.length < 2 ^ 32)
    (hcheckpoint : t.checkpoint crc = .ok t') : Inv B crc ws lo refused t' := by
  obtain ⟨manifest, hm, rfl⟩ := checkpoint_ok hcheckpoint
  obtain ⟨hsound, hversion⟩ := h.manifest.checkpoint hsize hm
  refine ⟨⟨h.length, h.seq, fun _ => h.leveled, ?_, ?_, h.mem, ?_⟩, h.leveled, hsound, ?_,
    h.journal⟩ <;>
    dsimp only
  · rw [hversion]
    exact h.runs
  · rw [hversion]
    exact h.overlap
  · rw [hversion]
    exact h.cache
  · rw [hversion]
    exact h.ids

theorem Inv.cached (h : Inv B crc ws lo refused t) {cache : SstPageCache}
    (hstep : CacheStep B t.sstables t.manifest.version.liveFiles t.cache cache) :
    Inv B crc ws lo refused { t with cache } :=
  ⟨⟨h.length, h.seq, h.levels, h.runs, h.overlap, h.mem, h.cache.step h.runs.pages hstep⟩,
    h.leveled, h.manifest, h.ids, h.journal⟩

theorem garbageCollect_of_live {v : Version} {id : SsTableId} (h : id ∈ v.liveFiles)
    (dir : SstDir) :
    v.garbageCollect dir id = dir id := by
  simp [Version.garbageCollect, h]

variable {manifest : ManifestManager}

theorem withMemtable_contents (disk : Disk) {records : List KeyValue}
    (hm : ManifestManager.open crc disk.manifests = .ok manifest)
    (hj : disk.journal = some (Journal.contents crc keyValueCodec records []))
    (hsmall : ∀ r ∈ records, r.encode.length < 2 ^ 32) (config : LsmConfig) (mem : BTreeMemtable) :
    ∃ journal : Journal, journal.file = Journal.contents crc keyValueCodec records [] ∧
      withMemtable crc disk config mem =
        ((replayAll mem records).mapError LsmError.ofWrite).map fun inner =>
          { config, cache := .empty, mem := { inner, journal }, manifest
            sstables := manifest.version.garbageCollect disk.sstables
            seq := max manifest.version.lastSeq inner.maxSeq } := by
  obtain ⟨journal, hfile, hjournaled⟩ := Journaled.open_contents hsmall (tornTail_nil crc) mem
  refine ⟨journal, hfile, ?_⟩
  rw [withMemtable, hm, hj, hjournaled]
  cases replayAll mem records <;> rfl

variable {config : LsmConfig}

theorem layered_opened {dir : SstDir} {inner : BTreeMemtable} (journal : Journal)
    (hlength : ws.length < 2 ^ 64) (hlevels : 0 < config.numLevels % 2 ^ 32)
    (hruns : RunsCover B dir ws manifest.version.runs manifest.version.lastSeq.toNat)
    (hlo : lo ≤ manifest.version.lastSeq.toNat) (hcovers : Covers inner.entries ws lo ws.length) :
    Layered B ws lo { config, cache := .empty, mem := { inner, journal }, manifest
                      sstables := manifest.version.garbageCollect dir
                      seq := max manifest.version.lastSeq inner.maxSeq } where
  length := hlength
  seq := toNat_resumed_seq hlength hcovers hlo hruns.le_length
  levels := fun _ => hlevels
  runs := hruns.congr (fun _ hid => garbageCollect_of_live hid dir)
  overlap := hlo
  mem := hcovers
  cache := coherent_empty _ _

/-- **A reopen** after accepted writes only, with any capacity that takes them. -/
theorem Inv.reopen (h : Inv B crc ws lo false t) {config : LsmConfig}
    (hlevels : 0 < config.numLevels % 2 ^ 32) {capacity : Nat}
    (hopen : withMemtable crc t.disk config (.withCapacity capacity) = .ok t') :
    Inv B crc ws lo false t' := by
  obtain ⟨records, hlogs, hstate⟩ := h.journal
  obtain ⟨manifest, hm, hsound, hversion⟩ := h.manifest.reopen
  obtain ⟨journal, hfile, heq⟩ := withMemtable_contents t.disk hm (congrArg some hlogs.file)
    hlogs.small config (.withCapacity capacity)
  obtain ⟨inner, hreplay, rfl⟩ := map_eq_ok.mp (heq.symm.trans hopen)
  rw [mapError_eq_ok] at hreplay
  cases hstate with
  | kept =>
    obtain ⟨hcovers, hcap⟩ := covers_of_replayAll h.length hreplay
    refine ⟨layered_opened journal h.length hlevels ?_ ?_ hcovers, hlevels, hsound, ?_, _,
      ⟨hfile, hlogs.small⟩, .kept ?_⟩
    · rw [hversion]
      exact h.runs
    · rw [hversion]
      exact h.overlap
    · show ∀ id ∈ manifest.version.liveFiles, id < manifest.version.nextSstId
      rw [hversion]
      exact h.ids
    · rw [hcap]
      exact hreplay

/-- Reopening with the same capacity after accepted writes only: the memtable is as it was. -/
theorem Inv.reopen_ok (h : Inv B crc ws lo false t) (config : LsmConfig) :
    ∃ t', withMemtable crc t.disk config (.withCapacity t.mem.inner.capacity) = .ok t' ∧
      t'.mem.inner = t.mem.inner := by
  obtain ⟨records, hlogs, hstate⟩ := h.journal
  obtain ⟨manifest, hm, -, -⟩ := h.manifest.reopen
  obtain ⟨journal, -, heq⟩ := withMemtable_contents t.disk hm (congrArg some hlogs.file)
    hlogs.small config (.withCapacity t.mem.inner.capacity)
  cases hstate with
  | kept hreplay =>
    rw [hreplay] at heq
    exact ⟨_, heq, rfl⟩

theorem Inv.open_refused (h : Inv B crc ws lo true t) {disk : Disk}
    (hm : ManifestManager.open crc disk.manifests = .ok manifest)
    (hj : disk.journal = t.disk.journal) (config : LsmConfig) :
    withMemtable crc disk config (.withCapacity t.mem.inner.capacity) =
      .error (.write .storeFull) := by
  obtain ⟨records, hlogs, hstate⟩ := h.journal
  obtain ⟨journal, -, heq⟩ := withMemtable_contents disk hm
    (hj.trans (congrArg some hlogs.file)) hlogs.small config (.withCapacity t.mem.inner.capacity)
  cases hstate with
  | stuck hreplay _ =>
    rw [heq, hreplay]
    rfl

theorem Inv.reopen_error (h : Inv B crc ws lo true t) (config : LsmConfig) :
    withMemtable crc t.disk config (.withCapacity t.mem.inner.capacity) =
      .error (.write .storeFull) := by
  obtain ⟨manifest, hm, -, -⟩ := h.manifest.reopen
  exact h.open_refused hm rfl config

theorem layered_create {capacity : Nat}
    (hopen : withMemtable crc {} config (.withCapacity capacity) = .ok t) : Layered B [] 0 t := by
  obtain ⟨manifest, journaled, hm, hj, rfl⟩ := withMemtable_eq_ok.mp hopen
  obtain ⟨-, hversion⟩ := sound_open_empty hm
  obtain ⟨journal, -, hjournaled⟩ :=
    Journaled.open_none crc (withCapacity capacity)
  obtain rfl := Except.ok.inj (hjournaled.symm.trans hj)
  have hcovers : Covers (withCapacity capacity).entries [] 0 0 :=
    ⟨List.Pairwise.nil, by simp [slice]⟩
  refine ⟨by simp, ?_, fun hruns => absurd ?_ hruns, ?_, Nat.zero_le _, hcovers, coherent_empty _ _⟩
    <;> dsimp only
  · rw [hversion]
    rfl
  · rw [hversion]
  · rw [hversion]
    exact .nil

theorem inv_create (hlevels : 0 < config.numLevels % 2 ^ 32) {capacity : Nat}
    (hopen : withMemtable crc {} config (.withCapacity capacity) = .ok t) :
    Inv B crc [] 0 false t := by
  have hlayered : Layered B [] 0 t := layered_create hopen
  obtain ⟨manifest, journaled, hm, hj, rfl⟩ := withMemtable_eq_ok.mp hopen
  obtain ⟨hsound, hversion⟩ := sound_open_empty hm
  obtain ⟨journal, hfile, hjournaled⟩ :=
    Journaled.open_none crc (withCapacity capacity)
  obtain rfl := Except.ok.inj (hjournaled.symm.trans hj)
  refine ⟨hlayered, hlevels, hsound, ?_, _, ⟨hfile, by simp⟩, .kept rfl⟩
  dsimp only
  rw [hversion]
  simp [Version.liveFiles]

end Steps

end StrataDb.Lsm
