import StrataDb.Crc
import StrataDb.LsmInvariant

/-!
# The tree is a versioned map

Puts, deletes, flushes, checkpoints and clean reopens, none of which returns an error, leave a
tree that reads as the versioned map of its writes. Lengths and the number of levels must fit 32
bits (`LsmFits`), and a range excluded at one key panics instead of being empty (`lsm_limits`).
-/

namespace StrataDb.Lsm

open ByteCodec OrderedMap Runs
open Crc (crc32)
open FastBloom (full)

/-! ### Events -/

/-- A call on the tree; `reopen` closes it and opens it again, and `cached` is a
    change of the page cache during reads. -/
inductive LsmEvent where
  | put (key value : Bytes)
  | delete (key : Bytes)
  | flush
  | checkpoint
  | reopen (config : LsmConfig) (capacity : Nat)
  | cached
deriving DecidableEq, Repr

def LsmEvent.toWrite : LsmEvent → Option Write
  | .put key value => some (key, some value)
  | .delete key => some (key, none)
  | _ => none

def writes (es : List LsmEvent) : List Write := es.filterMap LsmEvent.toWrite

section System

variable (B : FastBloom) (crc : Bytes → UInt32)

inductive LsmStep : Lsm → LsmEvent → Lsm → Prop
  | put {t t' : Lsm} {key value : Bytes} (h : t.put crc key value = (.ok (), t')) :
      LsmStep t (.put key value) t'
  | delete {t t' : Lsm} {key : Bytes} (h : t.delete crc key = (.ok (), t')) :
      LsmStep t (.delete key) t'
  | flush {t t' : Lsm} (h : t.flush B crc = .ok t') : LsmStep t .flush t'
  | checkpoint {t t' : Lsm} (h : t.checkpoint crc = .ok t') : LsmStep t .checkpoint t'
  | reopen {t t' : Lsm} {config : LsmConfig} {capacity : Nat}
      (h : withMemtable crc t.disk config (.withCapacity capacity) = .ok t') :
      LsmStep t (.reopen config capacity) t'
  | cached {t : Lsm} {cache : SstPageCache}
      (h : CacheStep B t.sstables t.manifest.version.liveFiles t.cache cache) :
      LsmStep t .cached { t with cache }

/-- The 32-bit limits on one call: the lengths of what it writes, and the number of
    levels of the configuration it opens with. -/
def LsmFits (t : Lsm) : LsmEvent → Prop
  | .put key value => (t.record key value .put).encode.length < 2 ^ 32
  | .delete key => (t.record key [] .delete).encode.length < 2 ^ 32
  | .flush => t.mem.inner.entries ≠ [] → TableFits B t.manifest.version.nextSstId
      t.config.flushTable t.mem.inner.entries
  | .checkpoint => t.manifest.version.toSnapshot.encode.length < 2 ^ 32
  | .reopen config _ => 0 < config.numLevels % 2 ^ 32
  | .cached => True

def LsmFitStep (t : Lsm) (e : LsmEvent) (t' : Lsm) : Prop := LsmStep B crc t e t' ∧ LsmFits B t e

variable {B crc}

theorem writes_snoc (es : List LsmEvent) (e : LsmEvent) :
    writes (es ++ [e]) = writes es ++ e.toWrite.toList := by
  cases e <;> simp [writes, LsmEvent.toWrite]

/-- A flush truncates the journal, and a refused record with it. -/
def LsmEvent.refusedAfter (refused : Bool) : LsmEvent → Bool
  | .flush => false
  | _ => refused

/-- **One call keeps the invariant.**  A tree whose journal holds a refused record is
    not reopened here. -/
theorem Inv.step {es : List LsmEvent} {lo : Nat} {refused : Bool} {t t' : Lsm} {e : LsmEvent}
    (h : Inv B crc (writes es) lo refused t) (hstep : LsmFitStep B crc t e t')
    (hreopen : ∀ config capacity, e = .reopen config capacity → refused = false) :
    ∃ lo', Inv B crc (writes (es ++ [e])) lo' (e.refusedAfter refused) t' := by
  obtain ⟨hstep, hfits⟩ := hstep
  rw [writes_snoc]
  cases hstep with
  | @put _ key value hput =>
    have hsmall : (logEntry (writes es).length (key, some value)).encode.length < 2 ^ 32 := by
      rw [← record_eq_logEntry h.seq]
      exact hfits
    exact ⟨lo, h.write hsmall hput⟩
  | @delete _ key hdelete =>
    have hsmall : (logEntry (writes es).length (key, none)).encode.length < 2 ^ 32 := by
      rw [← record_eq_logEntry h.seq]
      exact hfits
    exact ⟨lo, h.write hsmall hdelete⟩
  | flush hflush =>
    rw [show LsmEvent.flush.toWrite.toList = [] from rfl, List.append_nil]
    exact h.flush hfits hflush
  | checkpoint hcheckpoint =>
    rw [show LsmEvent.checkpoint.toWrite.toList = [] from rfl, List.append_nil]
    exact ⟨lo, h.checkpoint hfits hcheckpoint⟩
  | @reopen _ config capacity hopen =>
    obtain rfl := hreopen config capacity rfl
    rw [show (LsmEvent.reopen config capacity).toWrite.toList = [] from rfl, List.append_nil]
    exact ⟨lo, h.reopen hfits hopen⟩
  | cached hcache =>
    rw [show LsmEvent.cached.toWrite.toList = [] from rfl, List.append_nil]
    exact ⟨lo, h.cached hcache⟩

theorem Inv.accept {es : List LsmEvent} {lo : Nat} {t t' : Lsm} {e : LsmEvent}
    (h : Inv B crc (writes es) lo false t) (hstep : LsmFitStep B crc t e t') :
    ∃ lo', Inv B crc (writes (es ++ [e])) lo' false t' := by
  have hnext := h.step hstep (fun _ _ _ => rfl)
  cases e <;> exact hnext

/-- **The tree refines a versioned map.**  In every state of every run of calls that
    return no error and stay within the 32-bit limits, `get` is the latest value of
    each key, and a scan at any version, over any range that is not the wrong way
    around, is the map at that version. -/
theorem lsm_refines_versioned_map {config : LsmConfig} {capacity : Nat} {t₀ t : Lsm}
    {es : List LsmEvent} (hlevels : 0 < config.numLevels % 2 ^ 32)
    (hopen : withMemtable crc {} config (.withCapacity capacity) = .ok t₀)
    (hrun : Run (LsmFitStep B crc) t₀ es t) : Serves B (writes es) t := by
  have hinv : ∃ lo, Inv B crc (writes es) lo false t := by
    refine hrun.history (P := fun es t => ∃ lo, Inv B crc (writes es) lo false t)
      ⟨0, inv_create hlevels hopen⟩ ?_
    rintro es t e u ⟨lo, h⟩ hstep
    exact h.accept hstep
  obtain ⟨lo, h⟩ := hinv
  exact h.toLayered.serves

end System

/-! ### A run, and the limits -/

theorem create_ok (crc : Bytes → UInt32) (config : LsmConfig) (capacity : Nat) :
    ∃ t, withMemtable crc {} config (.withCapacity capacity) = .ok t ∧ t.config = config ∧
      t.cache = .empty ∧ t.mem.inner = .withCapacity capacity ∧ t.manifest.version = {} ∧
      t.seq = 0 := by
  obtain ⟨j, -, hm⟩ := open_empty crc
  obtain ⟨journal, -, hj⟩ := Journaled.open_none crc (.withCapacity capacity)
  exact ⟨_, withMemtable_eq_ok.mpr ⟨_, _, hm, hj, rfl⟩, rfl, rfl, rfl, rfl, rfl⟩

theorem write_of_room (crc : Bytes → UInt32) {t : Lsm} (hseq : t.seq ≠ U64_MAX) (key value : Bytes)
    (hroom : t.mem.inner.size + (key.length + value.length) ≤ t.mem.inner.capacity) (op : OpType) :
    ∃ t', t.write crc key value op = (.ok (), t') := by
  rcases write_cases crc hseq key value op with ⟨inner, -, hwrite⟩ | ⟨hfull, -⟩
  · exact ⟨_, hwrite⟩
  · have hkey : (t.record key value op).key.userKey.length = key.length := rfl
    have hfits : ¬ t.mem.inner.capacity < t.mem.inner.size + (key.length + value.length) := by omega
    simp [BTreeMemtable.put, hkey, hfits] at hfull

theorem write_of_empty (crc : Bytes → UInt32) {t : Lsm} (hseq : t.seq ≠ U64_MAX)
    (hempty : t.mem.inner.entries = []) (key value : Bytes) (op : OpType) :
    ∃ inner, inner.entries = [t.record key value op] ∧ inner.capacity = t.mem.inner.capacity ∧
      inner.size = t.mem.inner.size + (key.length + value.length) ∧
      t.write crc key value op = (.ok (),
        { t with mem := t.logged crc (t.record key value op) inner, seq := t.seq + 1 }) := by
  rcases write_cases crc hseq key value op with ⟨inner, hput, hwrite⟩ | ⟨hput, -⟩
  · obtain ⟨hstore, hcapacity, hsize⟩ := BTreeMemtable.put_ok hput
    have hnil : t.mem.inner.store.entries = [] := List.map_eq_nil_iff.mp hempty
    refine ⟨inner, ?_, hcapacity, hsize, hwrite⟩
    simp [BTreeMemtable.entries, hstore, OrderedMap.insert, hnil, insertEntry, record]
  · exact absurd hempty (BTreeMemtable.put_error hput).2

structure Flushed (B : FastBloom) (crc : Bytes → UInt32) (config : LsmConfig) (capacity : Nat)
    (key value : Bytes) (t₀ t₁ t₂ : Lsm) : Prop where
  create : withMemtable crc {} config (.withCapacity capacity) = .ok t₀
  put : t₀.put crc key value = (.ok (), t₁)
  flush : t₁.flush B crc = .ok t₂
  record : t₀.record key value .put = logEntry 0 (key, some value)
  before : t₁.mem.inner.entries = [logEntry 0 (key, some value)] ∧
    t₁.manifest.version.nextSstId = 0 ∧ t₁.config = config
  configured : t₂.config = config
  cache : t₂.cache = .empty
  mem : t₂.mem.inner = .withCapacity capacity
  runs : t₂.manifest.version.runs = [flushedRun 0]
  seq : t₂.seq = 1
  file : t₂.sstables 0 =
    some (tableBytes B 0 config.flushTable [logEntry 0 (key, some value)])

theorem exists_flushed (B : FastBloom) (crc : Bytes → UInt32) (config : LsmConfig) (capacity : Nat)
    (key value : Bytes)
    (hsize : (tableBytes B 0 config.flushTable [logEntry 0 (key, some value)]).length ≤ ISIZE_MAX) :
    ∃ t₀ t₁ t₂, Flushed B crc config capacity key value t₀ t₁ t₂ := by
  obtain ⟨t₀, hopen, hconfig, hcache, hmem, hversion, hseq⟩ := create_ok crc config capacity
  have hrecord : t₀.record key value .put = logEntry 0 (key, some value) := by
    simp only [record, hseq]
    rfl
  have hmax : (0 : UInt64) ≠ U64_MAX := by decide +kernel
  obtain ⟨inner, hentries, hcapacity, -, hput⟩ := write_of_empty crc (hseq.trans_ne hmax)
    (show t₀.mem.inner.entries = [] by rw [hmem]; rfl) key value .put
  rw [hrecord] at hentries hput
  refine ⟨t₀, _, _, hopen, hput, flush_of_entries ?_ ?_ ?_, hrecord, ⟨hentries, ?_, hconfig⟩,
    hconfig,
    hcache, ?_, ?_, ?_, ?_⟩
  · show inner.entries ≠ []
    simp [hentries]
  · show t₀.manifest.version.nextSstId ≠ U64_MAX
    rwa [hversion]
  · show (tableBytes B t₀.manifest.version.nextSstId t₀.config.flushTable inner.entries).length ≤ _
    rwa [hversion, hconfig, hentries]
  · show t₀.manifest.version.nextSstId = 0
    rw [hversion]
  · show inner.clear = _
    rw [BTreeMemtable.clear_eq, hcapacity, hmem]
    rfl
  · show (t₀.manifest.version.apply (flushEdit t₀.manifest.version.nextSstId _)).runs = _
    rw [hversion]
    rfl
  · show t₀.seq + 1 = 1
    rw [hseq]
    rfl
  · show Function.update t₀.sstables t₀.manifest.version.nextSstId (some (tableBytes B
      t₀.manifest.version.nextSstId t₀.config.flushTable inner.entries)) 0 = _
    rw [hversion, hconfig, hentries, Function.update_self]

def smallPages : LsmConfig where
  levels := [{ table := { page := { pageSizeBytes := 1, blocksPerChunk := 1 } } }]

theorem tableFits_smallPages : TableFits full 0 smallPages.flushTable
    [logEntry 0 ([1], some [2])] where
  blocks := by decide +kernel
  shards := by decide +kernel
  root := by decide +kernel

theorem lsm_refines_after_reopen : ∃ t₀ t,
    withMemtable crc32 {} smallPages (.withCapacity 16) = .ok t₀ ∧
    Run (LsmFitStep full crc32) t₀ [.put [1] [2], .flush, .reopen smallPages 16] t ∧
    Serves full [([1], some [2])] t := by
  have hlevels : 0 < smallPages.numLevels % 2 ^ 32 := by decide
  obtain ⟨t₀, t₁, t₂, h⟩ :=
    exists_flushed full crc32 smallPages 16 [1] [2] (by decide +kernel)
  have hput : LsmFitStep full crc32 t₀ (.put [1] [2]) t₁ := by
    refine ⟨.put h.put, ?_⟩
    show (t₀.record [1] [2] .put).encode.length < 2 ^ 32
    rw [h.record]
    decide +kernel
  have hflush : LsmFitStep full crc32 t₁ .flush t₂ := by
    refine ⟨.flush h.flush, ?_⟩
    intro _
    obtain ⟨hentries, hid, hconfig⟩ := h.before
    rw [hentries, hid, hconfig]
    exact tableFits_smallPages
  have hinv₀ : Inv full crc32 (writes []) 0 false t₀ := inv_create hlevels h.create
  obtain ⟨_, hinv₁⟩ := hinv₀.accept hput
  obtain ⟨_, hinv₂⟩ := hinv₁.accept hflush
  obtain ⟨t, hreopen, -⟩ := hinv₂.reopen_ok smallPages
  rw [h.mem] at hreopen
  have hrun : Run (LsmFitStep full crc32) t₀
      [.put [1] [2], .flush, .reopen smallPages 16] t :=
    .snoc (.snoc (.snoc .nil hput) hflush) ⟨.reopen hreopen, hlevels⟩
  exact ⟨t₀, t, h.create, hrun, lsm_refines_versioned_map hlevels h.create hrun⟩

/-! The limits.  First, what a lookup is when the memtable is empty. -/

theorem get_of_flushed (B : FastBloom) {t : Lsm} {capacity : Nat}
    (h : t.mem.inner = .withCapacity capacity) (key : Bytes) :
    t.get B key = (lookup B t key t.seq t.lookupFiles).map
      (·.bind (fun kv => resolve kv.key.op kv.value)) := by
  have hscan : ((t.mem.inner.scanAt (.included key) (.included key) t.seq).getD []).head?
    = none := by
    rw [BTreeMemtable.scanAt_eq _ (reversed_self key), h]
    rfl
  unfold Lsm.get getAt
  rw [hscan]
  cases hlookup : lookup B t key t.seq t.lookupFiles with
  | error e => rfl
  | ok found => cases found <;> rfl

section Wrapped

variable {value : Bytes} (hvalue : value.length = 2 ^ 32)

include hvalue

theorem encode_wrapped : (logEntry 0 ([1], some value)).encode =
    (logEntry 0 ([1], some [])).encode ++ value := by
  have hfield : beBytes 4 4294967296 = beBytes 4 0 := by decide
  simp [logEntry, KeyValue.encode, Codec.putBytes, hvalue, hfield, opOf]

theorem indexOf_wrapped : indexOf full 0 smallPages.flushTable
    (build full smallPages.flushTable [logEntry 0 ([1], some value)]) =
      ((logEntry 0 ([1], some value)).encode,
        .inline [{ minKey := [1], maxKey := [1], offset := 0, len := 18 }]) := by
  have hlen : (logEntry 0 ([1], some value)).encode.length = 18 + 2 ^ 32 := by
    rw [encode_wrapped hvalue, List.length_append, hvalue]
    rfl
  have hkey : (logEntry 0 ([1], some value)).key.userKey = [1] := rfl
  simp [indexOf, build, blocksOf, packBlocks, packBlock, layoutBlocks, encodeBlock, padTo,
    Nat.mod_one, smallPages, LsmConfig.flushTable, hlen, firstKey, lastKey, hkey]

theorem length_rootOf_wrapped :
    ((rootOf full 0 smallPages.flushTable [logEntry 0 ([1], some value)]).encode).length =
      68 := by
  have hspan : firstKey [logEntry 0 ([1], some value)] = [1] ∧
      lastKey [logEntry 0 ([1], some value)] = [1] := ⟨rfl, rfl⟩
  have hbloom : ∀ f, encodeBloom full f = beBytes 4 0 ++ beBytes 4 0 := fun _ => rfl
  rw [rootOf, indexOf_wrapped hvalue]
  simp [Header.encode, range_build, hspan, hbloom, Index.encode, putMetas, BlockMeta.encode]

theorem tableView_wrapped {dir : SstDir} (hdir : dir 0 =
    some (tableBytes full 0 smallPages.flushTable [logEntry 0 ([1], some value)])) :
    TableView dir (tableOf full 0 smallPages.flushTable [logEntry 0 ([1], some value)])
      [logEntry 0 ([1], some [])] := by
  refine ⟨⟨_, [[logEntry 0 ([1], some [])]], hdir, ?_, rfl⟩, fun _ => ?_, fun kv _ => rfl⟩
  · have hindex : (tableOf full 0 smallPages.flushTable
        [logEntry 0 ([1], some value)]).index =
        .inline [{ minKey := [1], maxKey := [1], offset := 0, len := 18 }] :=
      congrArg Prod.snd (indexOf_wrapped hvalue)
    have hblock : BlockAt (logEntry 0 ([1], some value)).encode [logEntry 0 ([1], some [])]
        { minKey := [1], maxKey := [1], offset := 0, len := 18 } := by
      refine ⟨List.cons_ne_nil _ _, by simp [KeyValue.Fits, logEntry], rfl, rfl, ?_, rfl⟩
      exact ⟨[], value, by simp [encodeBlock, encode_wrapped hvalue], rfl⟩
    rw [hindex, tableBytes_eq, indexOf_wrapped hvalue]
    exact Indexed.append _ (.inline (.cons hblock .nil)) _
  · have hrange := range_build (B := full) smallPages.flushTable
      (List.cons_ne_nil (logEntry 0 ([1], some value)) [])
    exact hrange

theorem length_tableBytes_wrapped : (tableBytes full 0 smallPages.flushTable
    [logEntry 0 ([1], some value)]).length ≤ ISIZE_MAX := by
  rw [tableBytes_eq, indexOf_wrapped hvalue, encode_wrapped hvalue]
  simp only [List.length_append, length_rootOf_wrapped hvalue, hvalue, length_beBytes,
    length_encode]
  decide +kernel

theorem get_wrapped : ∃ t₀ t, withMemtable crc32 {} smallPages (.withCapacity 16) = .ok t₀ ∧
    Run (LsmStep full crc32) t₀ [.put [1] value, .flush] t ∧
    t.get full [1] = .ok (some []) := by
  have hroot := length_rootOf_wrapped hvalue
  obtain ⟨t₀, t₁, t₂, h⟩ := exists_flushed full crc32 smallPages 16 [1] value
    (length_tableBytes_wrapped hvalue)
  refine ⟨t₀, t₂, h.create, .snoc (.snoc .nil (.put h.put)) (.flush h.flush), ?_⟩
  have hopen := open_tableBytes full h.file (by rw [hroot]; decide)
  have hview := tableView_wrapped hvalue h.file
  have hget : (tableOf full 0 smallPages.flushTable [logEntry 0 ([1], some value)]).get
      .empty t₂.sstables [1] t₂.seq = .ok (some (logEntry 0 ([1], some []))) :=
    hview.get (List.pairwise_singleton _ _) (by simp [h.seq, logEntry])
  have hfiles : t₂.lookupFiles = [0] := by
    rw [lookupFiles_eq (fun _ => by rw [h.configured]; decide) (by simp [h.runs, flushedRun]),
      h.runs]
    rfl
  rw [get_of_flushed full h.mem, hfiles, lookup, h.cache, hopen]
  simp only [bind, Except.bind, hget]
  rfl

end Wrapped

theorem Flushed.get_none {B : FastBloom} {crc : Bytes → UInt32} {config : LsmConfig}
    {capacity : Nat} {key value : Bytes} {t₀ t₁ t₂ : Lsm}
    (h : Flushed B crc config capacity key value t₀ t₁ t₂) (hlevels : config.numLevels % 2 ^ 32 = 0)
    (k : Bytes) : t₂.get B k = .ok none := by
  have hfiles : t₂.lookupFiles = [] := by
    rw [lookupFiles, h.configured, LsmConfig.levelIds, hlevels]
    rfl
  rw [get_of_flushed B h.mem, hfiles]
  rfl

theorem get_without_levels {config : LsmConfig} (hconfig : config.flushTable = {})
    (hlevels : config.numLevels % 2 ^ 32 = 0) :
    ∃ t₀ t, withMemtable crc32 {} config (.withCapacity 16) = .ok t₀ ∧
      Run (LsmStep full crc32) t₀ [.put [1] [2], .flush] t ∧
      t.get full [1] = .ok none := by
  obtain ⟨t₀, t₁, t₂, h⟩ := exists_flushed full crc32 config 16 [1] [2]
    (by rw [hconfig]; decide +kernel)
  exact ⟨t₀, t₂, h.create, .snoc (.snoc .nil (.put h.put)) (.flush h.flush), h.get_none hlevels [1]⟩

/-- A range with both ends excluded at one key is empty, and scanning it panics as
    soon as the memtable has an entry. -/
theorem scan_degenerate : ∃ t₀ t,
    withMemtable crc32 {} .default (.withCapacity DEFAULT_CAPACITY) = .ok t₀ ∧
    Run (LsmStep full crc32) t₀ [.put [1] [2]] t ∧
    t.scanAt full (.excluded [1]) (.excluded [1]) 1 =
      .error (.panicked "range start is greater than range end in BTreeMap") := by
  obtain ⟨t₀, hopen, -, -, hmem, -, hseq⟩ := create_ok crc32 .default DEFAULT_CAPACITY
  obtain ⟨inner, hentries, -, -, hput⟩ := write_of_empty crc32 (t := t₀)
    (by rw [hseq]; decide +kernel) (by rw [hmem]; rfl) [1] [2] .put
  refine ⟨t₀, _, hopen, .snoc .nil (.put hput), ?_⟩
  have hne : inner.store.entries.isEmpty = false := by
    rw [List.isEmpty_eq_false_iff]
    intro hnil
    simp [BTreeMemtable.entries, hnil] at hentries
  have hreversed : reversed (.excluded [1]) (.excluded [1] : Bound Bytes) = true := by decide
  have hscan : inner.scanAt (.excluded [1]) (.excluded [1]) 1 = none := by
    rw [BTreeMemtable.scanAt, OrderedMap.range, reversed_internal, hne, hreversed]
    rfl
  simp only [scanAt, logged, hscan]

/-- **Where the tree is not the versioned map of its writes**: a scan of a range with
    both ends excluded at one key, a value whose length does not fit into 32 bits, and
    a number of levels that is zero as a `u32`. -/
theorem lsm_limits :
    (∃ t₀ t, withMemtable crc32 {} .default (.withCapacity DEFAULT_CAPACITY) = .ok t₀ ∧
      Run (LsmStep full crc32) t₀ [.put [1] [2]] t ∧
      t.scanAt full (.excluded [1]) (.excluded [1]) 1 =
        .error (.panicked "range start is greater than range end in BTreeMap")) ∧
    (∃ value t₀ t, withMemtable crc32 {} smallPages (.withCapacity 16) = .ok t₀ ∧
      Run (LsmStep full crc32) t₀ [.put [1] value, .flush] t ∧
      t.get full [1] ≠ .ok (VersionedMap.apply (writes [.put [1] value, .flush]) [1])) ∧
    (∃ config t₀ t, 0 < config.numLevels ∧
      withMemtable crc32 {} config (.withCapacity 16) = .ok t₀ ∧
      Run (LsmStep full crc32) t₀ [.put [1] [2], .flush] t ∧
      t.get full [1] ≠ .ok (VersionedMap.apply (writes [.put [1] [2], .flush]) [1])) := by
  refine ⟨scan_degenerate, ?_, ?_⟩
  · -- the length wraps around, so the value reads back empty
    obtain ⟨value, hvalue⟩ : ∃ value : Bytes, value.length = 2 ^ 32 :=
      ⟨List.replicate _ 0, List.length_replicate⟩
    obtain ⟨t₀, t, hopen, hrun, hget⟩ := get_wrapped hvalue
    refine ⟨value, t₀, t, hopen, hrun, ?_⟩
    rw [hget]
    intro heq
    have hnil : [] = value := Option.some.inj (Except.ok.inj heq)
    rw [← hnil] at hvalue
    exact absurd hvalue (by decide)
  · -- as a `u32` there is no level to search
    have hnum : (LsmConfig.leveled (2 ^ 32)).numLevels = 2 ^ 32 := List.length_replicate
    have hzero : (LsmConfig.leveled (2 ^ 32)).numLevels % 2 ^ 32 = 0 := by
      rw [hnum, Nat.mod_self]
    obtain ⟨t₀, t, hopen, hrun, hget⟩ := get_without_levels rfl hzero
    refine ⟨.leveled (2 ^ 32), t₀, t, by rw [hnum]; decide, hopen, hrun, ?_⟩
    rw [hget]
    intro heq
    cases Except.ok.inj heq

end StrataDb.Lsm
