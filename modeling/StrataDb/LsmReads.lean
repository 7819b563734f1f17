import StrataDb.Lsm
import StrataDb.VersionedMap

/-!
# Reads of a layered tree

The `i`-th write of a history is the entry with sequence number `i + 1`. A tree is `Layered` over
a history when its tables hold stretches of it that follow each other, and the memtable the rest;
it may repeat the newest run. Such a tree reads as the versioned map of its history.
-/

namespace StrataDb.Lsm

open ByteCodec OrderedMap VersionedMap
open List (mem_append mem_cons mem_filter)

/-! ### Histories -/

/-- A write: a key and its new value, or `none` for a deletion. -/
abbrev Write := Bytes × Option Bytes

def opOf (value : Option Bytes) : OpType := if value.isSome then .put else .delete

/-- The record of the `i`-th write. -/
def logEntry (i : Nat) (w : Write) : KeyValue where
  key := { userKey := w.1, seq := UInt64.ofNat (i + 1), op := opOf w.2 }
  value := w.2.getD []

def log (ws : List Write) : List KeyValue := ws.mapIdx logEntry

def slice (ws : List Write) (lo hi : Nat) : List KeyValue := ((log ws).take hi).drop lo

theorem resolve_logEntry (i : Nat) (w : Write) :
    resolve (logEntry i w).key.op (logEntry i w).value = w.2 := by
  obtain ⟨k, _ | v⟩ := w <;> rfl

@[simp] theorem length_log (ws : List Write) : (log ws).length = ws.length := by simp [log]

theorem log_take (ws : List Write) (n : Nat) : log (ws.take n) = (log ws).take n := by
  apply List.ext_getElem?
  intro i
  simp only [log, List.getElem?_mapIdx, List.getElem?_take]
  split_ifs <;> rfl

theorem log_snoc (ws : List Write) (w : Write) :
    log (ws ++ [w]) = log ws ++ [logEntry ws.length w] := by
  simp [log, List.mapIdx_append]

variable {hi lo : Nat} {ws : List Write}

theorem mem_slice {kv : KeyValue} :
    kv ∈ slice ws lo hi ↔ ∃ i w, lo ≤ i ∧ i < hi ∧ ws[i]? = some w ∧ kv = logEntry i w := by
  rw [slice, List.mem_iff_getElem?]
  constructor
  · rintro ⟨n, hn⟩
    rw [List.getElem?_drop, List.getElem?_take] at hn
    split_ifs at hn with hlt
    rw [log, List.getElem?_mapIdx, Option.map_eq_some_iff] at hn
    obtain ⟨w, hw, rfl⟩ := hn
    exact ⟨lo + n, w, Nat.le_add_right _ _, hlt, hw, rfl⟩
  · rintro ⟨i, w, hlo, hhi, hw, rfl⟩
    refine ⟨i - lo, ?_⟩
    rw [List.getElem?_drop, Nat.add_sub_cancel' hlo, List.getElem?_take, if_pos hhi, log,
      List.getElem?_mapIdx, hw]
    rfl

variable {mid : Nat}

theorem slice_append (ws : List Write) (h₁ : lo ≤ mid) (h₂ : mid ≤ hi) :
    slice ws lo hi = slice ws lo mid ++ slice ws mid hi := by
  have hcut : (log ws).take hi = (log ws).take mid ++ ((log ws).take hi).drop mid := by
    conv_lhs => rw [← List.take_append_drop mid ((log ws).take hi), List.take_take,
      Nat.min_eq_left h₂]
  unfold slice
  by_cases hmid : mid ≤ (log ws).length
  · conv_lhs => rw [hcut, List.drop_append_of_le_length (by rw [List.length_take]; omega)]
  · rw [List.take_of_length_le (by omega), List.take_of_length_le (by omega),
      List.drop_eq_nil_of_le (show (log ws).length ≤ mid by omega), List.append_nil]

theorem slice_snoc_of_le (h : hi ≤ ws.length) (w : Write) (lo : Nat) :
    slice (ws ++ [w]) lo hi = slice ws lo hi := by
  rw [slice, slice, log_snoc, List.take_append_of_le_length (by simpa using h)]

theorem slice_last (ws : List Write) (w : Write) (h : lo ≤ ws.length) :
    slice (ws ++ [w]) lo (ws.length + 1) = slice ws lo ws.length ++ [logEntry ws.length w] := by
  rw [slice, slice, log_snoc, List.take_of_length_le (by simp), List.take_of_length_le (by simp),
    List.drop_append_of_le_length (by simpa using h)]

theorem toNat_seq_logEntry {i : Nat} (h : i + 1 < 2 ^ 64) (w : Write) :
    (logEntry i w).key.seq.toNat = i + 1 := UInt64.toNat_ofNat_of_lt' h

theorem slice_ascending (hlen : ws.length < 2 ^ 64) (lo hi : Nat) :
    (slice ws lo hi).Pairwise (fun a b => a.key.seq < b.key.seq) := by
  have hlog : (log ws).Pairwise (fun a b => a.key.seq < b.key.seq) := by
    rw [List.pairwise_iff_getElem]
    intro i j hi hj hij
    rw [length_log] at hi hj
    simp only [log, List.getElem_mapIdx]
    rw [UInt64.lt_iff_toNat_lt, toNat_seq_logEntry (by omega), toNat_seq_logEntry (by omega)]
    omega
  exact (hlog.sublist (List.take_sublist hi _)).sublist (List.drop_sublist lo _)

/-! ### The newest version of a key -/

def newest (ws : List Write) (lo hi : Nat) (key : Bytes) : Option KeyValue :=
  (slice ws lo hi).reverse.find? (hasKey key)

theorem newest_append (ws : List Write) (h₁ : lo ≤ mid) (h₂ : mid ≤ hi)
    (key : Bytes) : newest ws lo hi key = (newest ws mid hi key).or (newest ws lo mid key) := by
  rw [newest, slice_append ws h₁ h₂, List.reverse_append, List.find?_append]
  rfl

theorem newest_overlap (ws : List Write) (h₁ : lo ≤ mid) (h₂ : mid ≤ hi)
    (key : Bytes) : newest ws 0 hi key = (newest ws lo hi key).or (newest ws 0 mid key) := by
  rw [newest_append ws (Nat.zero_le lo) (h₁.trans h₂)]
  cases hnew : newest ws lo hi key with
  | some kv => rfl
  | none =>
    rw [newest_append ws h₁ h₂] at hnew
    rw [newest_append ws (Nat.zero_le lo) h₁, (Option.or_eq_none_iff.mp hnew).2]
    rfl

theorem mem_slice_overlap (h₁ : lo ≤ mid) (h₂ : mid ≤ hi)
    {kv : KeyValue} : kv ∈ slice ws 0 hi ↔ kv ∈ slice ws lo hi ∨ kv ∈ slice ws 0 mid := by
  simp only [slice_append ws (Nat.zero_le lo) (h₁.trans h₂), slice_append ws h₁ h₂,
    slice_append ws (Nat.zero_le lo) h₁, mem_append]
  tauto

/-- **The map of a history** is given by the newest record of each key. -/
theorem apply_take_eq_newest (ws : List Write) (n : Nat) (key : Bytes) :
    VersionedMap.apply (ws.take n) key =
      (newest ws 0 n key).bind (fun kv => resolve kv.key.op kv.value) := by
  have hslice : slice ws 0 n = log (ws.take n) := by rw [slice, List.drop_zero, log_take]
  rw [newest, hslice]
  generalize ws.take n = ws
  induction ws using List.reverseRecOn with
  | nil => rfl
  | append_singleton ws w ih =>
    rw [VersionedMap.apply_snoc, log_snoc, List.reverse_append, List.reverse_singleton,
      List.singleton_append]
    by_cases hw : w.1 = key
    · rw [List.find?_cons_of_pos (by simp [hasKey, logEntry, hw]), ← hw, Function.update_self,
        Option.bind_some, resolve_logEntry]
    · rw [List.find?_cons_of_neg (by simp [hasKey, logEntry, hw]),
        Function.update_of_ne (Ne.symm hw), ih]

/-- In internal-key order the newest record of a key comes first. -/
theorem find_eq_of_sorted {found written : List KeyValue} (hfound : RankSorted found)
    (hwritten : written.Pairwise (fun a b => a.key.seq < b.key.seq)) {key : Bytes}
    (hmem : ∀ kv, kv.key.userKey = key → (kv ∈ found ↔ kv ∈ written)) :
    found.find? (hasKey key) = written.reverse.find? (hasKey key) := by
  cases hlast : written.reverse.find? (hasKey key) with
  | none =>
    rw [List.find?_eq_none] at hlast ⊢
    intro kv hkv hkey
    have hkey' : kv.key.userKey = key := of_decide_eq_true hkey
    exact hlast kv (List.mem_reverse.mpr ((hmem kv hkey').mp hkv)) hkey
  | some last =>
    have hlastKey := userKey_of_find hlast
    have hlastMem : last ∈ found :=
      (hmem last hlastKey).mpr (List.mem_reverse.mp (List.mem_of_find?_eq_some hlast))
    -- no record of the key is newer than the last one written
    have hmax : ∀ kv ∈ written, kv.key.userKey = key → kv = last ∨ kv.key.seq < last.key.seq := by
      obtain ⟨-, before, after, hsplit, hbefore⟩ := List.find?_eq_some_iff_append.mp hlast
      have hwritten' : written = after.reverse ++ last :: before.reverse := by
        rw [← List.reverse_reverse written, hsplit]
        simp
      rw [hwritten'] at hwritten ⊢
      intro kv hkv hkey
      rcases mem_append.mp hkv with hkv | hkv
      · exact Or.inr ((List.pairwise_append.mp hwritten).2.2 kv hkv last List.mem_cons_self)
      · rcases mem_cons.mp hkv with rfl | hkv
        · exact Or.inl rfl
        · have hnot := hbefore kv (List.mem_reverse.mp hkv)
          simp [hasKey, hkey] at hnot
    cases hfirst : found.find? (hasKey key) with
    | none => exact absurd (decide_eq_true hlastKey) (List.find?_eq_none.mp hfirst last hlastMem)
    | some first =>
      have hfirstKey := userKey_of_find hfirst
      have hfirstMem := (hmem first hfirstKey).mp (List.mem_of_find?_eq_some hfirst)
      rcases hmax first hfirstMem hfirstKey with rfl | hlt
      · rfl
      · -- the first one found would come after `last` in internal-key order
        exfalso
        obtain ⟨-, before, after, rfl, hbefore⟩ := List.find?_eq_some_iff_append.mp hfirst
        rcases mem_append.mp hlastMem with hmem' | hmem'
        · have hnot := hbefore last hmem'
          simp [hasKey, hlastKey] at hnot
        · rcases mem_cons.mp hmem' with rfl | hmem'
          · exact lt_irrefl _ hlt
          · have hle := List.rel_of_pairwise_cons (List.pairwise_append.mp hfound).2.1 hmem'
            refine absurd hle (not_le.mpr (InternalKey.rank_lt_rank.mpr (Or.inr ⟨?_, hlt⟩)))
            rw [hlastKey, hfirstKey]

/-! ### Layers -/

structure Covers (entries : List KeyValue) (ws : List Write) (lo hi : Nat) : Prop where
  sorted : RankSorted entries
  mem : ∀ kv, kv ∈ entries ↔ kv ∈ slice ws lo hi

variable {entries : List KeyValue}

theorem Covers.find (h : Covers entries ws lo hi) (hlen : ws.length < 2 ^ 64) (key : Bytes) :
    entries.find? (hasKey key) = newest ws lo hi key :=
  find_eq_of_sorted h.sorted (slice_ascending hlen lo hi) (fun kv _ => h.mem kv)

theorem Covers.snoc_of_le (h : Covers entries ws lo hi) (hhi : hi ≤ ws.length) (w : Write) :
    Covers entries (ws ++ [w]) lo hi :=
  ⟨h.sorted, fun kv => by rw [h.mem, slice_snoc_of_le hhi]⟩

def flushedRun (id : SsTableId) : RunDescriptor := { level := 0, run := id, files := [id] }

/-- The runs are flushed tables whose stretches cover the history from the first write
    up to write `hi`, each reaching back at least to where the one before it ends. -/
inductive RunsCover (B : FastBloom) (dir : SstDir) (ws : List Write) :
    List RunDescriptor → Nat → Prop
  | nil : RunsCover B dir ws [] 0
  | snoc {runs : List RunDescriptor} {lo mid hi : Nat} {id : SsTableId} {entries : List KeyValue}
      (hruns : RunsCover B dir ws runs mid) (hlo : lo ≤ mid) (hmid : mid ≤ hi)
      (hhi : hi ≤ ws.length)
      (hstored : Stored B dir id entries) (hcovers : Covers entries ws lo hi) :
      RunsCover B dir ws (runs ++ [flushedRun id]) hi

section Runs

variable {B : FastBloom} {dir : SstDir} {ws : List Write} {runs : List RunDescriptor} {hi : Nat}

theorem RunsCover.le_length (h : RunsCover B dir ws runs hi) : hi ≤ ws.length := by
  cases h with
  | nil => exact Nat.zero_le _
  | snoc _ _ _ hhi _ _ => exact hhi

theorem RunsCover.level (h : RunsCover B dir ws runs hi) : ∀ run ∈ runs, run.level = 0 := by
  induction h with
  | nil => simp
  | snoc _ _ _ _ _ _ ih =>
    intro run hrun
    rcases mem_append.mp hrun with hrun | hrun
    · exact ih run hrun
    · rw [List.mem_singleton.mp hrun]
      rfl

theorem RunsCover.snoc_write (h : RunsCover B dir ws runs hi) (w : Write) :
    RunsCover B dir (ws ++ [w]) runs hi := by
  induction h with
  | nil => exact .nil
  | snoc _ hlo hmid hhi hstored hcovers ih =>
    exact .snoc ih hlo hmid (by rw [List.length_append]; omega) hstored (hcovers.snoc_of_le hhi w)

theorem RunsCover.congr (h : RunsCover B dir ws runs hi) {dir' : SstDir}
    (hfiles : ∀ id ∈ runs.flatMap (·.files), dir' id = dir id) : RunsCover B dir' ws runs hi := by
  induction h with
  | nil => exact .nil
  | @snoc runs lo mid hi id entries _ hlo hmid hhi hstored hcovers ih =>
    rw [List.flatMap_append] at hfiles
    refine .snoc (ih (fun i hi => hfiles i (List.mem_append_left _ hi))) hlo hmid hhi ?_ hcovers
    exact hstored.congr (hfiles id (List.mem_append_right _ (by simp [flushedRun])))

theorem RunsCover.stored (h : RunsCover B dir ws runs hi) :
    ∀ id ∈ runs.flatMap (·.files), ∃ entries, Stored B dir id entries := by
  induction h with
  | nil => simp
  | snoc _ _ _ _ hstored _ ih =>
    intro id hid
    rw [List.flatMap_append, mem_append] at hid
    rcases hid with hid | hid
    · exact ih id hid
    · obtain rfl : id = _ := by simpa [flushedRun] using hid
      exact ⟨_, hstored⟩

theorem RunsCover.pages (h : RunsCover B dir ws runs hi) (id : SsTableId)
    (hid : id ∈ runs.flatMap (·.files)) :
    ∀ table : SsTable B, SsTable.open B .empty dir id = .ok table → table.sstId = id
      ∧ OffsetsApart dir table := by
  obtain ⟨entries, hstored⟩ := h.stored id hid
  exact hstored.pages

end Runs

/-- A tree whose layers make up its history, the memtable from write `lo` on. -/
structure Layered (B : FastBloom) (ws : List Write) (lo : Nat) (t : Lsm) : Prop where
  length : ws.length < 2 ^ 64
  seq : t.seq.toNat = ws.length
  levels : t.manifest.version.runs ≠ [] → 0 < t.config.numLevels % 2 ^ 32
  runs : RunsCover B t.sstables ws t.manifest.version.runs t.manifest.version.lastSeq.toNat
  overlap : lo ≤ t.manifest.version.lastSeq.toNat
  mem : Covers t.mem.inner.entries ws lo ws.length
  cache : Coherent B t.sstables t.manifest.version.liveFiles t.cache

/-- **Reads of a versioned map.**  `get` is the latest value; a scan at version
    `maxSeq`, over any range that is not the wrong way around, yields the keys of the
    range that are present after the first `maxSeq` writes, once each, ascending, with
    their values then. -/
structure Serves (B : FastBloom) (ws : List Write) (t : Lsm) : Prop where
  get : ∀ key, t.get B key = .ok (VersionedMap.apply ws key)
  scan : ∀ start stop maxSeq, reversed start stop = false →
    ∃ pairs : List (Bytes × Bytes), t.scanAt B start stop maxSeq = .ok (pairs.map .ok) ∧
      pairs.Pairwise (fun a b => a.1 < b.1) ∧
      ∀ k v, (k, v) ∈ pairs ↔ inBounds start stop k = true ∧
        VersionedMap.apply (ws.take maxSeq.toNat) k = some v

/-! ### Which files a read visits -/

theorem levelIds_eq {config : LsmConfig} (h : 0 < config.numLevels % 2 ^ 32) :
    ∃ rest, config.levelIds = 0 :: rest ∧ ∀ level ∈ rest, level ≠ 0 := by
  obtain ⟨n, hn⟩ : ∃ n, config.numLevels % 2 ^ 32 = n + 1 := ⟨_, (Nat.succ_pred_eq_of_pos h).symm⟩
  have hlt : n + 1 < 2 ^ 32 + 1 := by
    rw [← hn]
    exact Nat.lt_succ_of_lt (Nat.mod_lt _ (by norm_num))
  refine ⟨((List.range n).map Nat.succ).map UInt32.ofNat, ?_, ?_⟩
  · rw [LsmConfig.levelIds, hn, List.range_succ_eq_map]
    rfl
  · intro level hlevel
    simp only [List.mem_map, List.mem_range, exists_exists_and_eq_and] at hlevel
    obtain ⟨i, hi, rfl⟩ := hlevel
    intro hzero
    have hnat := congrArg UInt32.toNat hzero
    rw [UInt32.toNat_ofNat_of_lt' (show i.succ < 2 ^ 32 by omega)] at hnat
    exact Nat.succ_ne_zero _ hnat

theorem runsIn_of_level {v : Version} (h : ∀ run ∈ v.runs, run.level = 0) (level : UInt32) :
    v.runsIn level = if level = 0 then v.runs else [] := by
  unfold Version.runsIn
  split_ifs with hlevel
  · rw [List.filter_eq_self]
    intro run hrun
    simp [h run hrun, hlevel]
  · rw [List.filter_eq_nil_iff]
    intro run hrun
    simp [h run hrun, Ne.symm hlevel]

theorem flatMap_levelIds {t : Lsm} (hlevels : 0 < t.config.numLevels % 2 ^ 32)
    {f : UInt32 → List SsTableId} (hf : ∀ level, level ≠ 0 → f level = []) :
    t.config.levelIds.flatMap f = f 0 := by
  obtain ⟨rest, heq, hrest⟩ := levelIds_eq hlevels
  rw [heq, List.flatMap_cons,
    List.flatMap_eq_nil_iff.mpr (fun level hl => hf level (hrest level hl)), List.append_nil]

theorem runsIn_of_nil {v : Version} (h : v.runs = []) (level : UInt32) : v.runsIn level = [] := by
  rw [Version.runsIn, h, List.filter_nil]

theorem lookupFiles_eq {t : Lsm}
    (hlevels : t.manifest.version.runs ≠ [] → 0 < t.config.numLevels % 2 ^ 32)
    (h : ∀ run ∈ t.manifest.version.runs, run.level = 0) :
    t.lookupFiles = t.manifest.version.runs.reverse.flatMap (·.files) := by
  unfold lookupFiles
  by_cases hnil : t.manifest.version.runs = []
  · simp [runsIn_of_nil hnil, hnil]
  rw [flatMap_levelIds (hlevels hnil)]
  · rw [runsIn_of_level h, if_pos rfl]
  · intro level hl
    rw [runsIn_of_level h, if_neg hl]
    rfl

theorem scanFiles_eq {t : Lsm}
    (hlevels : t.manifest.version.runs ≠ [] → 0 < t.config.numLevels % 2 ^ 32)
    (h : ∀ run ∈ t.manifest.version.runs, run.level = 0) :
    t.scanFiles = t.manifest.version.liveFiles := by
  unfold scanFiles
  by_cases hnil : t.manifest.version.runs = []
  · simp [runsIn_of_nil hnil, Version.liveFiles, hnil]
  rw [flatMap_levelIds (hlevels hnil)]
  · rw [runsIn_of_level h, if_pos rfl]
    rfl
  · intro level hl
    rw [runsIn_of_level h, if_neg hl]
    rfl

/-! ### Point lookups -/

section Reading

variable {B : FastBloom} {ws : List Write} {lo : Nat} {t : Lsm}

theorem seq_le_of_mem_slice (hlen : ws.length < 2 ^ 64) {kv : KeyValue}
    (h : kv ∈ slice ws lo hi) : kv.key.seq.toNat ≤ ws.length := by
  obtain ⟨i, w, -, -, hw, rfl⟩ := mem_slice.mp h
  have hi : i < ws.length := (List.getElem?_eq_some_iff.mp hw).1
  rw [toNat_seq_logEntry (by omega)]
  omega

theorem lookup_runs (h : Layered B ws lo t) {runs : List RunDescriptor}
    (hruns : RunsCover B t.sstables ws runs hi) (key : Bytes) :
    lookup B t key t.seq (runs.reverse.flatMap (·.files)) = .ok (newest ws 0 hi key) := by
  induction hruns with
  | nil => rfl
  | @snoc runs lo mid hi id entries _ hlo hmid _ hstored hcovers ih =>
    obtain ⟨table, hopen, -, hget, -⟩ := hstored.readable hcovers.sorted.keySorted h.cache
    have hvisible : ∀ kv ∈ entries, kv.key.userKey = key → kv.key.seq ≤ t.seq := by
      intro kv hkv _
      rw [UInt64.le_iff_toNat_le, h.seq]
      exact seq_le_of_mem_slice h.length ((hcovers.mem kv).mp hkv)
    rw [List.reverse_append, List.reverse_singleton, List.singleton_append, List.flatMap_cons]
    show lookup B t key t.seq (id :: runs.reverse.flatMap (·.files)) = _
    rw [newest_overlap ws hlo hmid, lookup, hopen]
    simp only [bind, Except.bind, hget key t.seq hvisible, hcovers.find h.length]
    cases newest ws lo hi key with
    | none => exact ih
    | some kv => rfl

theorem reversed_self (key : Bytes) : reversed (.included key) (.included key) = false := by
  simp [reversed]

theorem Layered.get (h : Layered B ws lo t) (key : Bytes) :
    t.get B key = .ok (VersionedMap.apply ws key) := by
  have hw := h.runs.le_length
  -- every version of the key in the memtable is visible
  have hscan : ((t.mem.inner.scanAt (.included key) (.included key) t.seq).getD []).head? =
      newest ws lo ws.length key := by
    rw [BTreeMemtable.scanAt_eq _ (reversed_self key), Option.getD_some, List.head?_filter,
      ← h.mem.find h.length]
    apply List.find?_congr
    intro kv hkv
    have hseq : kv.key.seq ≤ t.seq := by
      rw [UInt64.le_iff_toNat_le, h.seq]
      exact seq_le_of_mem_slice h.length ((h.mem.mem kv).mp hkv)
    simp only [visible, hseq, inBounds, afterStart, beforeEnd, hasKey, decide_true, Bool.true_and]
    rw [← Bool.decide_and]
    exact decide_eq_decide.mpr ⟨fun hk => le_antisymm hk.2 hk.1, fun hk => ⟨hk.ge, hk.le⟩⟩
  have hlookup : lookup B t key t.seq t.lookupFiles =
      .ok (newest ws 0 t.manifest.version.lastSeq.toNat key) := by
    rw [lookupFiles_eq h.levels h.runs.level]
    exact lookup_runs h h.runs key
  have hall := apply_take_eq_newest ws ws.length key
  rw [List.take_length, newest_overlap ws h.overlap hw] at hall
  unfold Lsm.get getAt
  rw [hscan, hlookup, hall]
  cases newest ws lo ws.length key with
  | some kv => rfl
  | none => cases newest ws 0 t.manifest.version.lastSeq.toNat key <;> rfl

/-! ### Scans -/

theorem overlaps_eq (range : KeyRange) (start stop : Bound Bytes) :
    overlaps range start stop = spanMeets start stop range.min range.max := by
  rw [← blockOverlaps_eq { minKey := range.min, maxKey := range.max, offset := 0, len := 0 }]
  cases start <;> cases stop <;> simp [overlaps, blockOverlaps, Bool.or_comm]

theorem sources_runs (h : Layered B ws lo t) {runs : List RunDescriptor}
    (hruns : RunsCover B t.sstables ws runs hi) (start stop : Bound Bytes) (maxSeq : UInt64) :
    ∃ sources : List (List KeyValue),
      (runs.flatMap (·.files)).filterMap (tableSource B t start stop maxSeq) =
        sources.map (·.map .ok) ∧
      (∀ s ∈ sources, RankSorted s) ∧
      ∀ kv, kv ∈ sources.flatten ↔ visible start stop maxSeq kv = true ∧ kv ∈ slice ws 0 hi := by
  induction hruns with
  | nil => exact ⟨[], rfl, by simp, by simp [slice]⟩
  | @snoc runs lo mid hi id entries _ hlo hmid _ hstored hcovers ih =>
    obtain ⟨sources, hsources, hsorted, hmem⟩ := ih
    obtain ⟨table, hopen, hrange, -, hscan⟩ := hstored.readable hcovers.sorted.keySorted h.cache
    have hfiles : (runs ++ [flushedRun id]).flatMap (·.files) = runs.flatMap (·.files) ++ [id] := by
      simp [flushedRun]
    have hvisible : ∀ kv, kv ∈ entries.filter (visible start stop maxSeq) ↔
        visible start stop maxSeq kv = true ∧ kv ∈ slice ws lo hi := by
      intro kv
      rw [mem_filter, hcovers.mem, and_comm]
    -- a table that does not overlap has nothing to add
    have hsource : ∃ last : List (List KeyValue),
        (tableSource B t start stop maxSeq id).toList = last.map (·.map .ok) ∧
        (∀ s ∈ last, RankSorted s) ∧
        ∀ kv, kv ∈ last.flatten ↔ kv ∈ entries.filter (visible start stop maxSeq) := by
      rw [tableSource, hopen]
      dsimp only
      split_ifs with hover
      · rw [hscan]
        refine ⟨[entries.filter (visible start stop maxSeq)], rfl, ?_, by simp⟩
        intro s hs
        rw [List.mem_singleton.mp hs]
        exact List.Pairwise.filter _ hcovers.sorted
      · refine ⟨[], rfl, by simp, ?_⟩
        intro kv
        refine ⟨fun hkv => absurd hkv (by simp), fun hkv => ?_⟩
        obtain ⟨hkv, hvis⟩ := mem_filter.mp hkv
        simp only [visible, Bool.and_eq_true] at hvis
        rw [overlaps_eq, hrange (List.ne_nil_of_mem hkv), spanMeets_of_inBounds hvis.2
          (firstKey_le hcovers.sorted.keySorted hkv) (le_lastKey hcovers.sorted.keySorted hkv)]
          at hover
        exact absurd rfl hover
    obtain ⟨last, hlast, hlastSorted, hlastMem⟩ := hsource
    refine ⟨sources ++ last, ?_, ?_, ?_⟩
    · have hone : [id].filterMap (tableSource B t start stop maxSeq) =
          (tableSource B t start stop maxSeq id).toList := by
        cases hid : tableSource B t start stop maxSeq id <;> simp [hid]
      rw [hfiles, List.filterMap_append, hsources, List.map_append, ← hlast, hone]
    · intro s hs
      rcases mem_append.mp hs with hs | hs
      · exact hsorted s hs
      · exact hlastSorted s hs
    · intro kv
      rw [List.flatten_append, mem_append, hmem, hlastMem, hvisible, ← and_or_left,
        mem_slice_overlap hlo hmid, or_comm]

/-- All layers together, as one list in internal-key order: what is visible of the
    history.  Its first record of a key is the newest visible one. -/
theorem find_visible (hlen : ws.length < 2 ^ 64) {start stop : Bound Bytes} {maxSeq : UInt64}
    (hsorted : RankSorted entries)
    (hmem : ∀ kv, kv ∈ entries ↔ visible start stop maxSeq kv = true ∧ kv ∈ slice ws 0 ws.length)
    (key : Bytes) :
    entries.find? (hasKey key) =
      if inBounds start stop key then newest ws 0 maxSeq.toNat key else none := by
  split_ifs with hin
  · refine find_eq_of_sorted hsorted (slice_ascending hlen 0 maxSeq.toNat) ?_
    rintro kv rfl
    rw [hmem, mem_slice, mem_slice]
    simp only [visible, hin, Bool.and_true, decide_eq_true_eq, UInt64.le_iff_toNat_le]
    constructor
    · rintro ⟨hseq, i, w, -, hi, hw, rfl⟩
      rw [toNat_seq_logEntry (by omega)] at hseq
      exact ⟨i, w, Nat.zero_le i, by omega, hw, rfl⟩
    · rintro ⟨i, w, -, hi, hw, rfl⟩
      have hlt : i < ws.length := (List.getElem?_eq_some_iff.mp hw).1
      refine ⟨?_, i, w, Nat.zero_le i, hlt, hw, rfl⟩
      rw [toNat_seq_logEntry (by omega)]
      omega
  · rw [List.find?_eq_none]
    intro kv hkv hkey
    have hvis := ((hmem kv).mp hkv).1
    simp only [visible, Bool.and_eq_true] at hvis
    rw [of_decide_eq_true hkey] at hvis
    exact hin hvis.2

theorem resolve_eq_some {op : OpType} {value v : Bytes} :
    resolve op value = some v ↔ op = .put ∧ value = v := by
  cases op <;> simp [resolve]

theorem Layered.scanAt (h : Layered B ws lo t) {start stop : Bound Bytes}
    (hrange : reversed start stop = false ∨ t.mem.inner.entries = []) (maxSeq : UInt64) :
    ∃ pairs : List (Bytes × Bytes), t.scanAt B start stop maxSeq = .ok (pairs.map .ok) ∧
      pairs.Pairwise (fun a b => a.1 < b.1) ∧
      ∀ k v, (k, v) ∈ pairs ↔ inBounds start stop k = true ∧
        VersionedMap.apply (ws.take maxSeq.toNat) k = some v := by
  obtain ⟨sources, hsources, hsorted, hmem⟩ := sources_runs h h.runs start stop maxSeq
  have hfound : RankSorted (t.mem.inner.entries.filter (visible start stop maxSeq)) :=
    List.Pairwise.filter _ h.mem.sorted
  obtain ⟨entries, pairs, hperm, hentries, hpairs, hasc, hpair⟩ :=
    resolve_merge (t.mem.inner.entries.filter (visible start stop maxSeq) :: sources)
      (fun s hs => by
        rcases mem_cons.mp hs with rfl | hs
        · exact hfound
        · exact hsorted s hs)
  -- the memtable and the runs together hold the whole history
  have hall : ∀ kv, kv ∈ entries ↔
      visible start stop maxSeq kv = true ∧ kv ∈ slice ws 0 ws.length := by
    intro kv
    rw [hperm.mem_iff, List.flatten_cons, mem_append, hmem, mem_filter, h.mem.mem, and_comm,
      ← and_or_left, mem_slice_overlap h.overlap h.runs.le_length]
  refine ⟨pairs, ?_, hasc, ?_⟩
  · unfold Lsm.scanAt
    rw [BTreeMemtable.scanAt_fine _ hrange, scanFiles_eq h.levels h.runs.level, Version.liveFiles,
      hsources]
    simp only
    rw [← List.map_cons (f := fun s => List.map Except.ok s), hpairs, List.map_map]
    rfl
  · intro k v
    rw [hpair, apply_take_eq_newest, find_visible h.length hentries hall]
    split_ifs with hin
    · simp [hin, Option.bind_eq_some_iff, resolve_eq_some]
    · simp [hin]

/-- **A layered tree reads as the versioned map of its history.** -/
theorem Layered.serves (h : Layered B ws lo t) : Serves B ws t :=
  ⟨h.get, fun _ _ maxSeq hrange => h.scanAt (Or.inl hrange) maxSeq⟩

end Reading

end StrataDb.Lsm
