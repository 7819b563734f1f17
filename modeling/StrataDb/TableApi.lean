import StrataDb.PrefixRange
import StrataDb.StorageEngine
import StrataDb.Tables
import StrataDb.Joins

/-!
# Rows of a table (`crates/strata-db/src/storage/table_api.rs`, `row.rs`)

A row lies under its table's prefix: the three UUIDs and the incarnation, 56 bytes, and then the
encoding of its first column. A reader's calls take the engine and give it back, since a read
moves pages in the cache. No scan reads the predicate of its `ScanOptions`.
-/

namespace StrataDb.Sql

open ByteCodec OrderedMap PrefixRange
open Filesystem (BlockStore EvictionPolicy Crc32c)
open Store (StorageEngine StorageError)
open Lsm (FastBloom)

structure RowKey where
  projectId : ProjectId
  datasetId : DatasetId
  tableId : TableId
  truncationId : TruncationId
  userKey : Bytes

namespace RowKey

def PREFIX_BYTES : Nat := 56

def tablePrefix (projectId : ProjectId) (datasetId : DatasetId) (tableId : TableId)
    (truncationId : TruncationId) : Bytes :=
  projectId.uuid.bytes
    ++ (datasetId.uuid.bytes ++ (tableId.uuid.bytes ++ beBytes 8 truncationId.count.toNat))

def encode (key : RowKey) : Bytes :=
  key.projectId.uuid.bytes ++ (key.datasetId.uuid.bytes ++ (key.tableId.uuid.bytes ++
    (beBytes 8 key.truncationId.count.toNat ++ key.userKey)))

theorem encode_eq (key : RowKey) :
    key.encode = tablePrefix key.projectId key.datasetId key.tableId key.truncationId
      ++ key.userKey := by
  simp only [encode, tablePrefix, List.append_assoc]

theorem length_tablePrefix (p : ProjectId) (d : DatasetId) (t : TableId) (tr : TruncationId) :
    (tablePrefix p d t tr).length = PREFIX_BYTES := by
  simp only [tablePrefix, List.length_append, p.uuid.length_eq, d.uuid.length_eq, t.uuid.length_eq,
    length_beBytes, PREFIX_BYTES]

end RowKey

/-! ### Scan ranges -/

/-- The smallest byte string above every key that starts with `start`, none if `start` is
    all `0xff`.  The loop goes from the last byte to the first. -/
def nextAfterPrefix (start : Bytes) : Option Bytes :=
  go start.reverse
where
  go : Bytes → Option Bytes
    | [] => none
    | b :: rest => if b < 0xff then some (rest.reverse ++ [b + 1]) else go rest

/-- The end of the keys with a prefix, the `match` that `ScanOptions::prefix` and
    `TableReader::scan` share. -/
def prefixEnd (start : Bytes) : Bound Bytes :=
  match nextAfterPrefix start with
  | some k => .excluded k
  | none => .unbounded

abbrev Predicate := Tuple → Bool

structure ScanOptions where
  range : Bound Bytes × Bound Bytes := (.unbounded, .unbounded)
  predicate : Option Predicate := none

def ScanOptions.withPrefix (options : ScanOptions) (start : Bytes) : ScanOptions :=
  if start.isEmpty then options else { options with range := (.included start, prefixEnd start) }

def tableRange (tablePrefix : Bytes) (range : Bound Bytes × Bound Bytes) :
    Bound Bytes × Bound Bytes :=
  (match range.1 with
    | .included k => .included (tablePrefix ++ k)
    | .excluded k => .excluded (tablePrefix ++ k)
    | .unbounded => .included tablePrefix,
   match range.2 with
    | .included k => .included (tablePrefix ++ k)
    | .excluded k => .excluded (tablePrefix ++ k)
    | .unbounded => prefixEnd tablePrefix)

theorem le_ff (b : UInt8) : b ≤ 0xff :=
  UInt8.le_iff_toNat_le.mpr (Nat.le_of_lt_succ b.toNat_lt)

theorem nextAfterPrefix_go (bs : Bytes) :
    (∃ rest b m, bs = List.replicate m 0xff ++ b :: rest ∧ b < 0xff ∧
        nextAfterPrefix.go bs = some (rest.reverse ++ [b + 1])) ∨
      (∃ m, bs = List.replicate m 0xff) ∧ nextAfterPrefix.go bs = none := by
  induction bs with
  | nil => exact Or.inr ⟨⟨0, rfl⟩, rfl⟩
  | cons b bs ih =>
    rw [nextAfterPrefix.go]
    by_cases hb : b < 0xff
    · exact Or.inl ⟨bs, b, 0, rfl, hb, if_pos hb⟩
    · obtain rfl : b = 0xff := le_antisymm (le_ff b) (not_lt.mp hb)
      rw [if_neg hb]
      rcases ih with ⟨rest, b, m, rfl, hlt, hgo⟩ | ⟨⟨m, rfl⟩, hgo⟩
      · exact Or.inl ⟨rest, b, m + 1, rfl, hlt, hgo⟩
      · exact Or.inr ⟨⟨m + 1, rfl⟩, hgo⟩

theorem nextAfterPrefix_cases (start : Bytes) :
    (∃ q b m, start = q ++ b :: List.replicate m 0xff ∧ b < 0xff
      ∧ nextAfterPrefix start = some (q ++ [b + 1])) ∨
      (∃ m, start = List.replicate m 0xff) ∧ nextAfterPrefix start = none := by
  rcases nextAfterPrefix_go start.reverse with ⟨rest, b, m, hrev, hb, hgo⟩ | ⟨⟨m, hrev⟩, hgo⟩
  · refine Or.inl ⟨rest.reverse, b, m, ?_, hb, hgo⟩
    rw [← start.reverse_reverse, hrev]
    simp
  · refine Or.inr ⟨⟨m, ?_⟩, hgo⟩
    rw [← start.reverse_reverse, hrev, List.reverse_replicate]

theorem beforeEnd_prefixEnd {start key : Bytes} (hle : start ≤ key) :
    beforeEnd (prefixEnd start) key = true ↔ start <+: key := by
  rcases nextAfterPrefix_cases start with ⟨q, b, m, rfl, hb, hnext⟩ | ⟨⟨m, rfl⟩, hnext⟩
  · have hsucc : (b + 1).toNat = b.toNat + 1 := by
      have hlt : b.toNat < 255 := UInt8.lt_iff_toNat_lt.mp hb
      rw [UInt8.toNat_add]
      exact Nat.mod_eq_of_lt (Nat.succ_lt_succ hlt)
    have hbc : b < b + 1 := UInt8.lt_iff_toNat_lt.mpr (by omega)
    have hcover (a : UInt8) (ha : a < b + 1) : a ≤ b := by
      rw [UInt8.lt_iff_toNat_lt, hsucc] at ha
      exact UInt8.le_iff_toNat_le.mpr (by omega)
    rw [prefixEnd, hnext, prefix_iff_of_cover le_ff hbc hcover]
    simp [beforeEnd, hle]
  · rw [prefixEnd, hnext]
    exact iff_of_true rfl (prefix_of_replicate_le le_ff hle)

theorem lt_of_nextAfterPrefix {start next key : Bytes} (hnext : nextAfterPrefix start = some next)
    (h : start <+: key) : key < next := by
  have hle : start ≤ key := by
    obtain ⟨rest, rfl⟩ := h
    exact le_append start rest
  simpa [prefixEnd, hnext, beforeEnd] using (beforeEnd_prefixEnd hle).mpr h

theorem beforeEnd_of_bound {start bound : Bytes} (h : ∀ key, start <+: key → key < bound) :
    beforeEnd (prefixEnd start) bound = false := by
  by_contra hbefore
  have hle : start ≤ bound := (h start List.prefix_rfl).le
  have hprefix := (beforeEnd_prefixEnd hle).mp (Bool.of_not_eq_false hbefore)
  exact lt_irrefl bound (h bound hprefix)

/-- **The prefix successor is the least upper bound** of the strings with the prefix; there is
    none exactly if they have no bound, which is when the prefix has only bytes `0xff`. -/
theorem nextAfterPrefix_isLeast (start : Bytes) :
    (∀ next, nextAfterPrefix start = some next
      ↔ IsLeast {bound | ∀ key, start <+: key → key < bound} next) ∧
      (nextAfterPrefix start = none ↔ ¬ ∃ bound, ∀ key, start <+: key → key < bound) ∧
      (nextAfterPrefix start = none ↔ ∀ b ∈ start, b = 0xff) := by
  have hleast {next : Bytes} (hnext : nextAfterPrefix start = some next) :
      IsLeast {bound | ∀ key, start <+: key → key < bound} next := by
    refine ⟨fun key h => lt_of_nextAfterPrefix hnext h, fun bound hbound => ?_⟩
    simpa [prefixEnd, hnext, beforeEnd] using beforeEnd_of_bound hbound
  have hnone (hnext : nextAfterPrefix start = none) : ¬ ∃ bound, ∀ key, start <+: key → key
    < bound := by
    rintro ⟨bound, hbound⟩
    simpa [prefixEnd, hnext, beforeEnd] using beforeEnd_of_bound hbound
  refine ⟨fun next => ⟨hleast, fun h => ?_⟩, ⟨hnone, fun h => ?_⟩, ?_⟩
  · cases hcase : nextAfterPrefix start with
    | none => exact absurd ⟨next, h.1⟩ (hnone hcase)
    | some other => exact congrArg some ((hleast hcase).unique h)
  · cases hcase : nextAfterPrefix start with
    | none => rfl
    | some next => exact absurd ⟨next, (hleast hcase).1⟩ h
  · rcases nextAfterPrefix_cases start with ⟨q, b, m, rfl, hb, hnext⟩ | ⟨⟨m, rfl⟩, hnext⟩
    · rw [hnext]
      refine iff_of_false (Option.some_ne_none _) ?_
      intro h
      rw [h b (by simp)] at hb
      exact lt_irrefl _ hb
    · exact iff_of_true hnext fun b hb => (List.mem_replicate.mp hb).2

/-- **A table's range**: the keys under the prefix whose rest is in the caller's range. -/
theorem inBounds_tableRange {start key : Bytes} {range : Bound Bytes × Bound Bytes} :
    inBounds (tableRange start range).1 (tableRange start range).2 key = true ↔
      ∃ userKey, key = start ++ userKey ∧ inBounds range.1 range.2 userKey = true := by
  have hafter (k : Bytes) : afterStart (tableRange start range).1 (start ++ k) = afterStart
    range.1 k := by
    rcases range with ⟨_ | _ | _, _⟩ <;> simp [tableRange, afterStart, le_append]
  have hbefore (k : Bytes) : beforeEnd (tableRange start range).2 (start ++ k) = beforeEnd
    range.2 k := by
    rcases range with ⟨_, _ | _ | _⟩
    · simp [tableRange, beforeEnd]
    · simp [tableRange, beforeEnd]
    · exact (beforeEnd_prefixEnd (le_append start k)).mpr ⟨k, rfl⟩
  have hstart (h : afterStart (tableRange start range).1 key = true) : start ≤ key := by
    rcases range with ⟨k | k | _, _⟩ <;> simp only [tableRange, afterStart, decide_eq_true_eq] at h
    · exact (le_append start k).trans h
    · exact (le_append start k).trans h.le
    · exact h
  have hpre (h : inBounds (tableRange start range).1 (tableRange start range).2 key = true) :
      start <+: key := by
    rw [inBounds, Bool.and_eq_true] at h
    have hle : start ++ [] ≤ key := by simpa using hstart h.1
    rcases range with ⟨_, k | k | _⟩ <;> simp only [tableRange, beforeEnd, decide_eq_true_eq] at h
    · exact prefix_of_between hle h.2
    · exact prefix_of_between hle h.2.le
    · exact (beforeEnd_prefixEnd (hstart h.1)).mp h.2
  constructor
  · intro h
    obtain ⟨k, rfl⟩ := hpre h
    rw [inBounds, hafter, hbefore] at h
    exact ⟨k, rfl, h⟩
  · rintro ⟨k, rfl, h⟩
    rw [inBounds, hafter, hbefore]
    exact h

theorem reversed_tableRange (start : Bytes) (range : Bound Bytes × Bound Bytes) :
    reversed (tableRange start range).1 (tableRange start range).2 = reversed range.1 range.2 := by
  -- a bound of the caller lies between the prefix and the end of the prefix
  have hend (k : Bytes) : reversed (.included (start ++ k)) (prefixEnd start) = false ∧
      reversed (.excluded (start ++ k)) (prefixEnd start) = false := by
    have h := (beforeEnd_prefixEnd (le_append start k)).mpr ⟨k, rfl⟩
    cases hnext : prefixEnd start with
    | included e => rw [prefixEnd] at hnext; split at hnext <;> cases hnext
    | excluded e =>
      simp only [hnext, beforeEnd, decide_eq_true_eq] at h
      simpa [reversed] using ⟨h.le, h⟩
    | unbounded => exact ⟨rfl, rfl⟩
  rcases range with ⟨s | s | _, e | e | _⟩
  all_goals simp only [tableRange]
  case included.unbounded => exact (hend s).1
  case excluded.unbounded => exact (hend s).2
  case unbounded.unbounded =>
    have h := (hend []).1
    rw [List.append_nil] at h
    exact h
  all_goals simp [reversed, le_append]

theorem withPrefix_range (options : ScanOptions) {start : Bytes} (hstart : start ≠ []) :
    reversed (options.withPrefix start).range.1 (options.withPrefix start).range.2 = false
      ∧ ∀ key, inBounds (options.withPrefix start).range.1 (options.withPrefix start).range.2
        key = true
        ↔ start <+: key := by
  have hempty : start.isEmpty = false := by
    cases start with
    | nil => exact absurd rfl hstart
    | cons b bs => rfl
  have hrange : (options.withPrefix start).range = tableRange start (.unbounded, .unbounded) := by
    rw [ScanOptions.withPrefix, hempty]
    rfl
  rw [hrange]
  refine ⟨reversed_tableRange start (.unbounded, .unbounded), fun key => ?_⟩
  rw [inBounds_tableRange]
  constructor
  · rintro ⟨userKey, rfl, -⟩
    exact List.prefix_append start userKey
  · rintro ⟨userKey, rfl⟩
    exact ⟨userKey, rfl, rfl⟩

/-! ### Handles -/

def MAX_TEXT_SIZE : Nat := 8000

def checkValueSize (value : Value) : Outcome Unit :=
  let check (len : Nat) : Outcome Unit :=
    if MAX_TEXT_SIZE < len then
      unsupported ("value of " ++ toString len ++ " bytes exceeds the " ++ toString MAX_TEXT_SIZE
        ++ "-byte limit (large values need page-span support, not implemented yet)")
    else .ok ()
  match value with
  | .text s => check (utf8 s).length
  | .bytes b => check b.length
  | .array _ => check value.encodedSize
  | _ => .ok ()

def Fault.ofStore : Store.Fault → Fault
  | .error e => .error (.storage e)
  | .panicked msg => .panicked msg

structure TableHandle where
  projectId : ProjectId
  datasetId : DatasetId
  tableId : TableId
  truncationId : TruncationId
  schema : Schema

def TableHandle.new (table : Table) : TableHandle :=
  ⟨table.projectId, table.datasetId, table.id, table.truncationId, table.schema⟩

def TableHandle.rowKey (h : TableHandle) (userKey : Bytes) : Bytes :=
  RowKey.encode ⟨h.projectId, h.datasetId, h.tableId, h.truncationId, userKey⟩

def TableHandle.tablePrefix (h : TableHandle) : Bytes :=
  RowKey.tablePrefix h.projectId h.datasetId h.tableId h.truncationId

theorem TableHandle.rowKey_eq (h : TableHandle) (userKey : Bytes) :
    h.rowKey userKey = h.tablePrefix ++ userKey :=
  RowKey.encode_eq _

abbrev TableReader := TableHandle

abbrev TableWriter := TableHandle

section Calls

variable {V P : Type} {n : Nat} [BlockStore V] [EvictionPolicy P (Fin n)]
variable (rt : Runtime) (B : FastBloom) (crc32 : Bytes → UInt32) (crc : Crc32c)
  (hash : Bytes → UInt32)

def userKey (key : Value) : Outcome Bytes :=
  key.encodeKey.mapError (fun e => .error (.ofKeyEncode e))

namespace TableReader

def get (h : TableReader) (engine : StorageEngine V P n) (key : Value) :
    Outcome (Option Tuple) × StorageEngine V P n :=
  match userKey key with
  | .error e => (.error e, engine)
  | .ok userKey =>
    match engine.get B crc hash (h.rowKey userKey) with
    | (.error e, engine) => (.error (.ofStore e), engine)
    | (.ok none, engine) | (.ok (some none), engine) => (.ok none, engine)
    | (.ok (some (some bytes)), engine) => ((decodeRow rt h.schema bytes).map some, engine)

def scanned (schema : Schema) : Except StorageError (Bytes × Option Bytes) → Outcome Tuple
  | .error e => .error (.error (.storage e))
  | .ok (_, some bytes) => decodeRow rt schema bytes
  | .ok (_, none) => internalError "scanned a deleted tuple"

/-- A `TableScan`, drained. -/
def scan (h : TableReader) (engine : StorageEngine V P n) (options : ScanOptions) :
    Outcome RowStream × StorageEngine V P n :=
  let (start, stop) := tableRange h.tablePrefix options.range
  match engine.scan B crc hash start stop with
  | (.error e, engine) => (.error (.ofStore e), engine)
  | (.ok items, engine) => (.ok (items.map (scanned rt h.schema)), engine)

theorem scan_fst (h : TableReader) (engine : StorageEngine V P n) (options : ScanOptions) :
    (h.scan rt B crc hash engine options).1 =
      ((engine.scan B crc hash (tableRange h.tablePrefix options.range).1
        (tableRange h.tablePrefix options.range).2).1.mapError .ofStore).map
          (·.map (scanned rt h.schema)) := by
  simp only [scan]
  rcases engine.scan B crc hash _ _ with ⟨_ | _, _⟩ <;> rfl

end TableReader

namespace TableWriter

/-- Insert a row under the key of its first column. -/
def put (h : TableWriter) (engine : StorageEngine V P n) (tuple : Tuple) :
    Outcome Unit × StorageEngine V P n :=
  match tuple with
  | [] => (internalError "cannot insert empty tuple", engine)
  | first :: _ =>
    let encoded : Outcome (Bytes × Bytes) := do
      tuple.forM checkValueSize
      let userKey ← userKey first
      return (h.rowKey userKey, ← h.schema.encode rt tuple)
    match encoded with
    | .error e => (.error e, engine)
    | .ok (rowKey, valueBytes) =>
      let (r, engine) := engine.put crc32 crc hash rowKey valueBytes
      (r.mapError .ofStore, engine)

def delete (h : TableWriter) (engine : StorageEngine V P n) (key : Value) :
    Outcome Unit × StorageEngine V P n :=
  match userKey key with
  | .error e => (.error e, engine)
  | .ok userKey =>
    let (r, engine) := engine.delete crc32 (h.rowKey userKey)
    (r.mapError .ofStore, engine)

end TableWriter

end Calls
end StrataDb.Sql
