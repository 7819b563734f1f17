import StrataDb.LsmRefinement

/-!
# Versions of a key in one table

A lookup reads one block, the first with a version of the key, so it is right exactly when that
block has a visible version if any block does (`sstable_get_newest`); a scan reads every block
that its range meets.
-/

namespace StrataDb.Lsm

open ByteCodec Codec OrderedMap
open FastBloom (full)

theorem InternalKey.rank_le_rank {a b : InternalKey} (h : a.rank ≤ b.rank) :
    a.userKey < b.userKey ∨ a.userKey = b.userKey ∧ b.seq ≤ a.seq := by
  simpa [InternalKey.rank, Prod.Lex.toLex_le_toLex] using h

theorem rankSorted_twoVersions : RankSorted [logEntry 1 ([1], none), logEntry 0 ([1], some [2])] :=
  List.pairwise_pair.mpr (by decide)

theorem tableFits_twoVersions : TableFits full 0 smallPages.flushTable
    [logEntry 1 ([1], none), logEntry 0 ([1], some [2])] where
  blocks := by decide +kernel
  shards := by decide +kernel
  root := by decide +kernel

theorem tableFits_oneBlock : TableFits full 0 {}
    [logEntry 1 ([1], none), logEntry 0 ([1], some [2])] where
  blocks := by decide +kernel
  shards := by decide +kernel
  root := by decide +kernel

section Scan

variable {B : FastBloom} {sstId : SsTableId} {config : TableConfig} {entries : List KeyValue}

theorem write_of_size (dir : SstDir)
    (hsize : (tableBytes B sstId config entries).length ≤ ISIZE_MAX) :
    dir.write B sstId config entries
      = .ok (Function.update dir sstId (some (tableBytes B sstId config entries))) := by
  rw [SstDir.write]
  exact if_neg (not_lt.mpr hsize)

/-- **A scan is exact**: a written table opens and yields the entries of the range that are
    visible, each once and in order, through any cache that holds pages of its files. -/
theorem sstable_scan_exact (hfits : TableFits B sstId config entries)
    (hsize : (tableBytes B sstId config entries).length ≤ ISIZE_MAX) (hs : RankSorted entries)
    (dir : SstDir) :
    ∃ dir', dir.write B sstId config entries = .ok dir' ∧
      ∀ live cache, Coherent B dir' live cache →
        ∃ table, SsTable.open B cache dir' sstId = .ok table ∧
          ∀ start stop maxSeq, table.scan cache dir' start stop maxSeq =
            (entries.filter fun kv => decide (kv.key.seq ≤ maxSeq) && inBounds start stop
              kv.key.userKey).map
              .ok := by
  refine ⟨_, write_of_size dir hsize, fun live cache hcache => ?_⟩
  obtain ⟨hstored, -⟩ := stored_write hfits (write_of_size dir hsize)
  obtain ⟨table, hopen, -, -, hscan⟩ := hstored.readable hs.keySorted hcache
  exact ⟨table, hopen, hscan⟩

end Scan

/-- The scan of a table of two versions, one block to a shard. -/
theorem sstable_scan_exact_two_versions : ∃ dir table, SstDir.write full (fun _ => none) 0
      smallPages.flushTable [logEntry 1 ([1], none), logEntry 0 ([1], some [2])] = .ok dir ∧
    SsTable.open FastBloom.full .empty dir 0 = .ok table ∧
    table.scan .empty dir .unbounded (.included [1]) 1 = [.ok (logEntry 0 ([1], some [2]))] := by
  obtain ⟨dir, hwrite, hread⟩ := sstable_scan_exact tableFits_twoVersions (by decide +kernel)
    rankSorted_twoVersions (fun _ => none)
  obtain ⟨table, hopen, hscan⟩ := hread [] .empty (coherent_empty _ _)
  exact ⟨dir, table, hwrite, hopen, (hscan .unbounded (.included [1]) 1).trans (by decide +kernel)⟩

/-- **A value of 4 GiB comes back empty.** -/
theorem sstable_scan_wraps : ∃ value dir table, SstDir.write full (fun _ => none) 0
      smallPages.flushTable [logEntry 0 ([1], some value)] = .ok dir ∧
    SsTable.open FastBloom.full .empty dir 0 = .ok table ∧
    table.scan .empty dir .unbounded .unbounded 1 ≠ [.ok (logEntry 0 ([1], some value))] := by
  obtain ⟨value, hvalue⟩ : ∃ value : Bytes, value.length = 2 ^ 32 :=
    ⟨List.replicate _ 0, List.length_replicate⟩
  obtain ⟨dir, hwrite, hdir⟩ : ∃ dir, SstDir.write full (fun _ => none) 0 smallPages.flushTable
      [logEntry 0 ([1], some value)] = .ok dir ∧ dir 0 = some (tableBytes full 0
        smallPages.flushTable [logEntry 0 ([1], some value)]) :=
    ⟨_, write_of_size _ (length_tableBytes_wrapped hvalue), Function.update_self ..⟩
  have hroot : ((rootOf full 0 smallPages.flushTable
      [logEntry 0 ([1], some value)]).encode).length < 2 ^ 32 := by
    rw [length_rootOf_wrapped hvalue]
    decide
  refine ⟨value, dir, _, hwrite, open_tableBytes full hdir hroot, ?_⟩
  rw [(tableView_wrapped hvalue hdir).scan (List.pairwise_singleton _ _)]
  intro heq
  obtain rfl : [] = value := congrArg KeyValue.value (Except.ok.inj (List.cons.inj heq).1)
  exact absurd hvalue (by decide)

/-! ### Lookups -/

/-- The answer that a lookup of the newest visible version is to give. -/
def IsNewest (entries : List KeyValue) (key : Bytes) (maxSeq : UInt64) : Option KeyValue → Prop
  | some kv => kv ∈ entries ∧ versionAt key maxSeq kv = true ∧
      ∀ kv' ∈ entries, versionAt key maxSeq kv' = true → kv'.key.seq ≤ kv.key.seq
  | none => ∀ kv ∈ entries, versionAt key maxSeq kv = false

/-- The first block with a version of the key has a visible one, if there is one at all. -/
def FirstBlockVisible (config : TableConfig) (entries : List KeyValue) (key : Bytes)
    (maxSeq : UInt64) : Prop :=
  ∀ b, (blocksOf config entries).find? (·.any (hasKey key)) = some b →
    entries.any (versionAt key maxSeq) = true → b.any (versionAt key maxSeq) = true

section Lookup

variable {blocks : List (List KeyValue)} {b : List KeyValue} {key : Bytes} {maxSeq : UInt64}

theorem versionAt_iff {kv : KeyValue} :
    versionAt key maxSeq kv = true ↔ kv.key.userKey = key ∧ kv.key.seq ≤ maxSeq := by
  rw [versionAt, Bool.and_eq_true, decide_eq_true_iff, decide_eq_true_iff]

theorem Decides.find_any (h : Decides id blocks b key)
    (hkey : ∃ kv ∈ blocks.flatten, kv.key.userKey = key) :
    blocks.find? (·.any (hasKey key)) = some b := by
  obtain ⟨kv, hkv, heq⟩ := h.holds (by rwa [List.flatMap_id])
  obtain ⟨before, after, rfl, hbefore⟩ := h.split
  rw [List.flatMap_id] at hbefore
  refine List.find?_eq_some_iff_append.mpr ⟨List.any_eq_true.mpr ⟨kv, hkv, decide_eq_true heq⟩,
    before, after,
    rfl, fun b' hb' => ?_⟩
  rw [Bool.not_eq_true', List.any_eq_false]
  intro kv' hkv' hhas
  exact hbefore kv' (List.mem_flatten_of_mem hb' hkv') (of_decide_eq_true hhas)

/-- What the deciding block has first is the newest visible version. -/
theorem Decides.isNewest (h : Decides id blocks b key) (hs : RankSorted blocks.flatten)
    {kv : KeyValue} (hfind : b.find? (versionAt key maxSeq) = some kv) :
    IsNewest blocks.flatten key maxSeq (some kv) := by
  have hkv : kv ∈ b := List.mem_of_find?_eq_some hfind
  have hvis := List.find?_some hfind
  refine ⟨List.mem_flatten_of_mem h.mem hkv, hvis, fun kv' hkv' hvis' => ?_⟩
  have hkeys : kv.key.userKey = kv'.key.userKey :=
    (versionAt_iff.mp hvis).1.trans (versionAt_iff.mp hvis').1.symm
  have hle : kv.key.rank ≤ kv'.key.rank := by
    obtain ⟨before, after, rfl, hbefore⟩ := h.split
    rw [List.flatMap_id] at hbefore
    rw [List.flatten_append, List.flatten_cons] at hs hkv'
    obtain ⟨-, hrest, -⟩ := List.pairwise_append.mp hs
    obtain ⟨hblock, -, hafter⟩ := List.pairwise_append.mp hrest
    rcases List.mem_append.mp hkv' with hkv' | hkv'
    · exact absurd (versionAt_iff.mp hvis').1 (hbefore kv' hkv')
    rcases List.mem_append.mp hkv' with hkv' | hkv'
    · obtain ⟨-, front, back, rfl, hfront⟩ := List.find?_eq_some_iff_append.mp hfind
      rcases List.mem_append.mp hkv' with hkv' | hkv'
      · exact absurd hvis' (by simpa using hfront kv' hkv')
      rcases List.mem_cons.mp hkv' with rfl | hkv'
      · exact le_refl _
      · exact List.rel_of_pairwise_cons (List.pairwise_append.mp hblock).2.1 hkv'
    · exact hafter kv hkv kv' hkv'
  rcases InternalKey.rank_le_rank hle with hlt | ⟨-, hseq⟩
  · exact absurd hkeys hlt.ne
  · exact hseq

end Lookup

section Get

variable {B : FastBloom} {sstId : SsTableId} {config : TableConfig} {entries : List KeyValue}

theorem get_of_written {dir : SstDir} (hfits : TableFits B sstId config entries)
    (hsize : (tableBytes B sstId config entries).length ≤ ISIZE_MAX) (hs : KeySorted entries)
    (hdir : dir sstId = some (tableBytes B sstId config entries)) (key : Bytes) (maxSeq : UInt64) :
    ((∀ kv ∈ entries, kv.key.userKey ≠ key) ∧
        (tableOf B sstId config entries).get .empty dir key maxSeq = .ok none) ∨
      ∃ b, Decides id (blocksOf config entries) b key ∧
        (tableOf B sstId config entries).get .empty dir key maxSeq
        = .ok (b.find? (versionAt key maxSeq)) := by
  have hflat := flatten_blocksOf config entries
  have hget :=
    @get_of_indexed B dir (tableOf B sstId config entries) _ _ hdir (indexed_tableBytes hfits hsize)
    (by rwa [hflat]) (by rw [hflat]; exact range_build (B := B) config)
    (by rw [hflat]; exact contains_tableOf sstId config entries) key maxSeq
  rwa [hflat] at hget

/-- **A lookup is right** exactly when the first block with a version of the key has a
    visible one, if there is one at all. -/
theorem sstable_get_newest (hfits : TableFits B sstId config entries)
    (hsize : (tableBytes B sstId config entries).length ≤ ISIZE_MAX) (hs : RankSorted entries)
    (dir : SstDir) (key : Bytes) (maxSeq : UInt64) :
    ∃ dir', dir.write B sstId config entries = .ok dir' ∧
      ∀ live cache, Coherent B dir' live cache →
        ∃ table found, SsTable.open B cache dir' sstId = .ok table ∧
          table.get cache dir' key maxSeq = .ok found ∧
          (IsNewest entries key maxSeq found ↔ FirstBlockVisible config entries key maxSeq) := by
  refine ⟨_, write_of_size dir hsize, fun live cache hcache => ?_⟩
  obtain ⟨hstored, -⟩ := stored_write hfits (write_of_size dir hsize)
  generalize hdir' : Function.update dir sstId (some (tableBytes B sstId config entries)) = dir'
    at hcache hstored ⊢
  have hdir : dir' sstId = some (tableBytes B sstId config entries) := by
    rw [← hdir', Function.update_self]
  have hopen := open_tableBytes B hdir hfits.root
  obtain ⟨hid, hoff⟩ := hstored.pages _ hopen
  refine ⟨tableOf B sstId config entries, ?_⟩
  rw [hcache.open_eq, hcache.get_eq hopen hid hoff]
  rcases get_of_written hfits hsize hs.keySorted hdir key maxSeq with ⟨hnone, hget⟩ | ⟨b,
    hdecides, hget⟩
  · have hinvisible : ∀ kv ∈ entries, versionAt key maxSeq kv = false := fun kv hkv =>
      Bool.eq_false_iff.mpr fun hvis => hnone kv hkv (versionAt_iff.mp hvis).1
    refine ⟨none, hopen, hget, iff_of_true hinvisible fun b _ hany => ?_⟩
    obtain ⟨kv, hkv, hvis⟩ := List.any_eq_true.mp hany
    exact absurd hvis (Bool.eq_false_iff.mp (hinvisible kv hkv))
  · refine ⟨_, hopen, hget, ?_⟩
    have hflat := flatten_blocksOf config entries
    cases hfind : b.find? (versionAt key maxSeq) with
    | some kv =>
      have hnewest := hdecides.isNewest (by rwa [hflat]) hfind
      have hkey := hdecides.find_any ⟨kv, hnewest.1, (versionAt_iff.mp hnewest.2.1).1⟩
      rw [hflat] at hnewest
      refine iff_of_true hnewest ?_
      intro b' hb' _
      obtain rfl := Option.some.inj (hkey.symm.trans hb')
      exact List.any_eq_true.mpr ⟨kv, List.mem_of_find?_eq_some hfind, hnewest.2.1⟩
    | none =>
      -- the answer is right if nothing is visible; otherwise a later block has what is
      constructor
      · intro hinvisible b' _ hany
        obtain ⟨kv, hkv, hvis⟩ := List.any_eq_true.mp hany
        exact absurd hvis (Bool.eq_false_iff.mp (hinvisible kv hkv))
      · intro hfirst kv hkv
        apply Bool.eq_false_iff.mpr
        intro hvis
        have hkey := hdecides.find_any ⟨kv, by rwa [hflat], (versionAt_iff.mp hvis).1⟩
        obtain ⟨kv', hkv', hvis'⟩ :=
          List.any_eq_true.mp (hfirst b hkey (List.any_eq_true.mpr ⟨kv, hkv, hvis⟩))
        exact List.find?_eq_none.mp hfind kv' hkv' hvis'

end Get

/-- Both versions of a key in one block. -/
theorem sstable_get_newest_one_block : ∃ dir table, SstDir.write full (fun _ => none) 0 {}
      [logEntry 1 ([1], none), logEntry 0 ([1], some [2])] = .ok dir ∧
    SsTable.open FastBloom.full .empty dir 0 = .ok table ∧
    ∃ found, table.get .empty dir [1] 1 = .ok found ∧
      IsNewest [logEntry 1 ([1], none), logEntry 0 ([1], some [2])] [1] 1 found := by
  obtain ⟨dir, hwrite, hread⟩ := sstable_get_newest tableFits_oneBlock (by decide +kernel)
    rankSorted_twoVersions (fun _ => none) [1] 1
  obtain ⟨table, found, hopen, hget, hiff⟩ := hread [] .empty (coherent_empty _ _)
  refine ⟨dir, table, hwrite, hopen, found, hget, hiff.mpr fun b hb _ => ?_⟩
  have hblock : (blocksOf {} [logEntry 1 ([1], none), logEntry 0 ([1], some [2])]).find?
    (·.any (hasKey [1]))
      = some [logEntry 1 ([1], none), logEntry 0 ([1], some [2])] := by
    decide +kernel
  obtain rfl := Option.some.inj (hblock.symm.trans hb)
  decide +kernel

/-- **A version in the second block is not found.** -/
theorem sstable_get_misses_version : ∃ dir table, SstDir.write full (fun _ => none) 0
      smallPages.flushTable [logEntry 1 ([1], none), logEntry 0 ([1], some [2])] = .ok dir ∧
    SsTable.open FastBloom.full .empty dir 0 = .ok table ∧
    table.get .empty dir [1] 1 = .ok none ∧
    ¬ IsNewest [logEntry 1 ([1], none), logEntry 0 ([1], some [2])] [1] 1 none := by
  have hsize : (tableBytes full 0 smallPages.flushTable
      [logEntry 1 ([1], none), logEntry 0 ([1], some [2])]).length ≤ ISIZE_MAX := by
    decide +kernel
  obtain ⟨dir, hwrite, hdir⟩ : ∃ dir, SstDir.write full (fun _ => none) 0 smallPages.flushTable
      [logEntry 1 ([1], none), logEntry 0 ([1], some [2])] = .ok dir
        ∧ dir 0 = some (tableBytes full 0
        smallPages.flushTable [logEntry 1 ([1], none), logEntry 0 ([1], some [2])]) :=
    ⟨_, write_of_size _ hsize, Function.update_self ..⟩
  refine ⟨dir, _, hwrite, open_tableBytes full hdir tableFits_twoVersions.root, ?_, ?_⟩
  · rcases get_of_written tableFits_twoVersions hsize rankSorted_twoVersions.keySorted hdir
      [1] 1 with
      ⟨hnone, -⟩ | ⟨b, hdecides, hget⟩
    · exact absurd rfl (hnone _ List.mem_cons_self)
    · have hblock :
          (blocksOf smallPages.flushTable [logEntry 1 ([1], none),
          logEntry 0 ([1], some [2])]).find?
          (·.any (hasKey [1])) = some [logEntry 1 ([1], none)] := by
        decide +kernel
      have hfirst := hdecides.find_any ⟨_, by rw [flatten_blocksOf]; exact List.mem_cons_self, rfl⟩
      obtain rfl := Option.some.inj (hblock.symm.trans hfirst)
      rw [hget]
      decide +kernel
  · intro hnone
    exact Bool.false_ne_true ((hnone _ (List.mem_cons_of_mem _ List.mem_cons_self)).symm.trans
      (by decide))

end StrataDb.Lsm
