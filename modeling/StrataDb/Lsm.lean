import StrataDb.LsmIterator
import StrataDb.Manifest
import StrataDb.Memtable
import StrataDb.SstPageCache

/-!
# The log-structured merge tree (`crates/lsm/src/lib.rs`)

Writes are logged and land in the memtable; `flush` seals it into a table file, records that in
the manifest and clears the memtable and its log. Opening rebuilds all of it from the disk.
-/

namespace StrataDb.Lsm

open ByteCodec OrderedMap Merge

structure LevelConfig where
  table : TableConfig := {}
deriving DecidableEq, Repr

structure LsmConfig where
  levels : List LevelConfig
deriving DecidableEq, Repr

def LsmConfig.leveled (numLevels : Nat) : LsmConfig where
  levels := List.replicate numLevels {}

def LsmConfig.default : LsmConfig := .leveled 7

def LsmConfig.numLevels (config : LsmConfig) : Nat := config.levels.length

def LsmConfig.levelIds (config : LsmConfig) : List UInt32 :=
  (List.range (config.numLevels % 2 ^ 32)).map UInt32.ofNat

def LsmConfig.flushTable (config : LsmConfig) : TableConfig :=
  (config.levels.head?.map (·.table)).getD {}

/-! ### The tree -/

structure Disk where
  manifests : ManifestDir := {}
  journal : Option Bytes := none
  sstables : SstDir := fun _ => none

end StrataDb.Lsm

namespace StrataDb

structure Lsm where
  config : Lsm.LsmConfig
  cache : Lsm.SstPageCache
  mem : Lsm.Journaled
  manifest : Lsm.ManifestManager
  sstables : Lsm.SstDir
  seq : UInt64

end StrataDb

namespace StrataDb.Lsm

open ByteCodec OrderedMap Merge

def disk (t : Lsm) : Disk where
  manifests := t.manifest.dir
  journal := some t.mem.journal.file
  sstables := t.sstables

def BTreeMemtable.scanAll (m : BTreeMemtable) : List KeyValue :=
  (m.scanAt .unbounded .unbounded U64_MAX).getD []

def BTreeMemtable.maxSeq (m : BTreeMemtable) : UInt64 :=
  (m.scanAll.map (·.key.seq)).foldl max 0

section Operations

variable (B : FastBloom) (crc : Bytes → UInt32)

def withMemtable (disk : Disk) (config : LsmConfig) (mem : BTreeMemtable) :
    Except LsmError Lsm := do
  let manifest ← ManifestManager.open crc disk.manifests
  let mem ← (Journaled.open crc disk.journal mem).mapError LsmError.ofWrite
  .ok { config, cache := .empty, mem, manifest
        sstables := manifest.version.garbageCollect disk.sstables
        seq := max manifest.version.lastSeq mem.inner.maxSeq }

/-- `write`: the sequence number moves on only if the memtable took the write. -/
def write (t : Lsm) (key value : Bytes) (op : OpType) : Except Fault Unit × Lsm :=
  if t.seq = U64_MAX then (.error (.panicked "attempt to add with overflow"), t)
  else
    match t.mem.put crc { userKey := key, seq := t.seq + 1, op } value with
    | (.ok (), mem) => (.ok (), { t with mem, seq := t.seq + 1 })
    | (.error e, mem) => (.error (.error (.ofWrite e)), { t with mem })

def put (t : Lsm) (key value : Bytes) : Except Fault Unit × Lsm := t.write crc key value .put

def delete (t : Lsm) (key : Bytes) : Except Fault Unit × Lsm := t.write crc key [] .delete

def flushEdit (id : SsTableId) (seq : UInt64) : ManifestEdit where
  ops := [.addRun { level := 0, run := id, files := [id] }, .setNextSstId (id + 1), .setLastSeq seq]

/-- `flush`: write the table, commit the edit, clear the memtable, in this order. -/
def flush (t : Lsm) : Except Fault Lsm :=
  let entries := t.mem.inner.scanAll
  if entries.isEmpty then .ok t
  else do
    let id := t.manifest.version.nextSstId
    let sstables ← t.sstables.write B id t.config.flushTable entries
    if id = U64_MAX then .error (.panicked "attempt to add with overflow")
    else .ok { t with sstables
                      manifest := t.manifest.commit crc (flushEdit id t.seq)
                      mem := t.mem.clear }

def checkpoint (t : Lsm) : Except Fault Lsm := do
  let manifest ← t.manifest.checkpoint crc
  .ok { t with manifest }

/-! ### Reads -/

/-- A put yields its value, a tombstone nothing. -/
def resolve : OpType → Bytes → Option Bytes
  | .put, value => some value
  | .delete, _ => none

def lookupFiles (t : Lsm) : List SsTableId :=
  t.config.levelIds.flatMap fun level =>
    (t.manifest.version.runsIn level).reverse.flatMap (·.files)

def scanFiles (t : Lsm) : List SsTableId :=
  t.config.levelIds.flatMap fun level => (t.manifest.version.runsIn level).flatMap (·.files)

def lookup (t : Lsm) (key : Bytes) (maxSeq : UInt64) :
    List SsTableId → Except LsmError (Option KeyValue)
  | [] => .ok none
  | id :: ids => do
    let table ← SsTable.open B t.cache t.sstables id
    match ← table.get t.cache t.sstables key maxSeq with
    | some kv => .ok (some kv)
    | none => lookup t key maxSeq ids

/-- `get_at`: the memtable, then the tables; the first layer that has the key
    decides.  A range from a key to itself is never the wrong way around. -/
def getAt (t : Lsm) (key : Bytes) (maxSeq : UInt64) : Except LsmError (Option Bytes) :=
  match ((t.mem.inner.scanAt (.included key) (.included key) maxSeq).getD []).head? with
  | some kv => .ok (resolve kv.key.op kv.value)
  | none => do
    match ← lookup B t key maxSeq t.lookupFiles with
    | some kv => .ok (resolve kv.key.op kv.value)
    | none => .ok none

def get (t : Lsm) (key : Bytes) : Except LsmError (Option Bytes) := t.getAt B key t.seq

def overlaps (range : KeyRange) (start stop : Bound Bytes) : Bool :=
  let below := match stop with
    | .included e => decide (e < range.min)
    | .excluded e => decide (e ≤ range.min)
    | .unbounded => false
  let above := match start with
    | .included s => decide (range.max < s)
    | .excluded s => decide (range.max ≤ s)
    | .unbounded => false
  !(below || above)

/-- The stream of one table, if it could hold any key of the range; a table that
    does not open is a stream of one error. -/
def tableSource (t : Lsm) (start stop : Bound Bytes) (maxSeq : UInt64) (id : SsTableId) :
    Option (List (Except ReadError KeyValue)) :=
  match SsTable.open B t.cache t.sstables id with
  | .error e => some [.error (.internal e.text)]
  | .ok table =>
    if overlaps table.range start stop then
      some (table.scan t.cache t.sstables start stop maxSeq)
    else none

def LsmError.ofRead : ReadError → LsmError
  | .internal msg => .internal msg

/-- `scan_at`, drained.  The memtable's range is built first, and a range that is the
    wrong way around ends it. -/
def scanAt (t : Lsm) (start stop : Bound Bytes) (maxSeq : UInt64) :
    Except Fault (List (Except LsmError (Bytes × Bytes))) :=
  match t.mem.inner.scanAt start stop maxSeq with
  | none => .error (.panicked "range start is greater than range end in BTreeMap")
  | some found =>
    let sources := found.map .ok :: t.scanFiles.filterMap (tableSource B t start stop maxSeq)
    .ok ((resolveVersions none (merge compareItems sources)).map (·.mapError LsmError.ofRead))

def scan (t : Lsm) (start stop : Bound Bytes) :
    Except Fault (List (Except LsmError (Bytes × Bytes))) :=
  t.scanAt B start stop t.seq

end Operations

/-! ### What each operation does -/

@[simp] theorem BTreeMemtable.scanAll_eq (m : BTreeMemtable) : m.scanAll = m.entries := by
  rw [BTreeMemtable.scanAll, m.scanAt_eq rfl, Option.getD_some, List.filter_eq_self]
  intro kv _
  simp only [visible, inBounds, afterStart, beforeEnd, Bool.and_true, decide_eq_true_eq]
  exact le_u64Max kv.key.seq

section Specs

variable {B : FastBloom} {crc : Bytes → UInt32} {t t' : Lsm}

def record (t : Lsm) (key value : Bytes) (op : OpType) : KeyValue :=
  { key := { userKey := key, seq := t.seq + 1, op }, value }

def logged (crc : Bytes → UInt32) (t : Lsm) (kv : KeyValue) (inner : BTreeMemtable) : Journaled :=
  { inner, journal := Journal.append crc keyValueCodec t.mem.journal kv }

theorem write_cases (crc : Bytes → UInt32) {t : Lsm} (hseq : t.seq ≠ U64_MAX) (key value : Bytes)
    (op : OpType) :
    (∃ inner, t.mem.inner.put (t.record key value op).key value = .ok inner ∧
      t.write crc key value op = (.ok (),
        { t with mem := t.logged crc (t.record key value op) inner, seq := t.seq + 1 })) ∨
    (t.mem.inner.put (t.record key value op).key value = .error .storeFull ∧
      t.write crc key value op = (.error (.error (.write .storeFull)),
        { t with mem := t.logged crc (t.record key value op) t.mem.inner })) := by
  cases hput : t.mem.inner.put (t.record key value op).key value with
  | ok inner =>
    have hmem : t.mem.put crc { userKey := key, seq := t.seq + 1, op } value =
        (.ok (), t.logged crc (t.record key value op) inner) := Journaled.put_of_ok hput
    exact Or.inl ⟨inner, rfl, by rw [write, if_neg hseq, hmem]⟩
  | error e =>
    obtain rfl := (BTreeMemtable.put_error hput).1
    have hmem : t.mem.put crc { userKey := key, seq := t.seq + 1, op } value =
        (.error .storeFull, t.logged crc (t.record key value op) t.mem.inner) :=
      Journaled.put_of_error hput
    exact Or.inr ⟨rfl, by rw [write, if_neg hseq, hmem]; rfl⟩

theorem write_seq {key value : Bytes} {op : OpType} {r : Except Fault Unit}
    (h : t.write crc key value op = (r, t')) (hr : ∀ msg, r ≠ .error (.panicked msg)) :
    t.seq ≠ U64_MAX := by
  intro hmax
  rw [write, if_pos hmax] at h
  exact hr _ (congrArg Prod.fst h).symm

theorem write_ok {key value : Bytes} {op : OpType} (h : t.write crc key value op = (.ok (), t')) :
    t.seq ≠ U64_MAX ∧ ∃ inner, t.mem.inner.put (t.record key value op).key value = .ok inner ∧
      t' = { t with mem := t.logged crc (t.record key value op) inner, seq := t.seq + 1 } := by
  have hseq := write_seq h (by simp)
  rcases write_cases crc hseq key value op with ⟨inner, hput, hwrite⟩ | ⟨-, hwrite⟩
  · exact ⟨hseq, inner, hput, (congrArg Prod.snd (h.symm.trans hwrite))⟩
  · cases congrArg Prod.fst (h.symm.trans hwrite)

theorem write_error {key value : Bytes} {op : OpType} {e : LsmError}
    (h : t.write crc key value op = (.error (.error e), t')) :
    t.mem.inner.put (t.record key value op).key value = .error .storeFull ∧
      t' = { t with mem := t.logged crc (t.record key value op) t.mem.inner } := by
  have hseq := write_seq h (by simp)
  rcases write_cases crc hseq key value op with ⟨inner, -, hwrite⟩ | ⟨hput, hwrite⟩
  · cases congrArg Prod.fst (h.symm.trans hwrite)
  · exact ⟨hput, congrArg Prod.snd (h.symm.trans hwrite)⟩

theorem flush_ok (h : t.flush B crc = .ok t') :
    (t.mem.inner.entries = [] ∧ t' = t) ∨
    (t.mem.inner.entries ≠ [] ∧ t.manifest.version.nextSstId ≠ U64_MAX ∧
      ∃ sstables, t.sstables.write B t.manifest.version.nextSstId t.config.flushTable
          t.mem.inner.entries = .ok sstables ∧
        t' = { t with
          sstables
          manifest := t.manifest.commit crc (flushEdit t.manifest.version.nextSstId t.seq)
          mem := t.mem.clear }) := by
  simp only [flush, BTreeMemtable.scanAll_eq] at h
  split_ifs at h with hempty hmax
  · exact Or.inl ⟨List.isEmpty_iff.mp hempty, (Except.ok.inj h).symm⟩
  · obtain ⟨-, -, h⟩ := Runs.bind_eq_ok.mp h
    cases h
  · obtain ⟨sstables, hwrite, h⟩ := Runs.bind_eq_ok.mp h
    exact Or.inr ⟨fun hnil => hempty (List.isEmpty_iff.mpr hnil), hmax, sstables, hwrite,
      (Except.ok.inj h).symm⟩

theorem flush_of_entries (hne : t.mem.inner.entries ≠ [])
    (hid : t.manifest.version.nextSstId ≠ U64_MAX)
    (hsize : (tableBytes B t.manifest.version.nextSstId t.config.flushTable
      t.mem.inner.entries).length ≤ ISIZE_MAX) :
    t.flush B crc = .ok { t with
      sstables := Function.update t.sstables t.manifest.version.nextSstId
        (some (tableBytes B t.manifest.version.nextSstId t.config.flushTable t.mem.inner.entries))
      manifest := t.manifest.commit crc (flushEdit t.manifest.version.nextSstId t.seq)
      mem := t.mem.clear } := by
  have hwrite : t.sstables.write B t.manifest.version.nextSstId t.config.flushTable
      t.mem.inner.entries = .ok _ := if_neg (not_lt.mpr hsize)
  rw [flush, BTreeMemtable.scanAll_eq, if_neg (by simpa using hne)]
  simp only [hwrite, bind, Except.bind, if_neg hid]

theorem checkpoint_ok (h : t.checkpoint crc = .ok t') :
    ∃ manifest, t.manifest.checkpoint crc = .ok manifest ∧ t' = { t with manifest } := by
  obtain ⟨manifest, hm, h⟩ := Runs.bind_eq_ok.mp h
  exact ⟨manifest, hm, (Except.ok.inj h).symm⟩

theorem withMemtable_eq_ok {disk : Disk} {config : LsmConfig} {mem : BTreeMemtable} :
    withMemtable crc disk config mem = .ok t ↔
      ∃ manifest journaled, ManifestManager.open crc disk.manifests = .ok manifest ∧
        Journaled.open crc disk.journal mem = .ok journaled ∧
        t = { config, cache := .empty, mem := journaled, manifest
              sstables := manifest.version.garbageCollect disk.sstables
              seq := max manifest.version.lastSeq journaled.inner.maxSeq } := by
  simp only [withMemtable, Runs.bind_eq_ok, Runs.mapError_eq_ok, Except.ok.injEq]
  constructor
  · rintro ⟨manifest, hm, journaled, hj, rfl⟩
    exact ⟨manifest, journaled, hm, hj, rfl⟩
  · rintro ⟨manifest, journaled, hm, hj, rfl⟩
    exact ⟨manifest, hm, journaled, hj, rfl⟩

end Specs

end StrataDb.Lsm
