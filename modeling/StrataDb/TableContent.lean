import StrataDb.EngineMap
import StrataDb.TableApi

/-!
# A table as a map (`crates/strata-db/src/storage/table_api.rs`)

A table holds the part of the engine's map under its prefix (`content`). Reads are functions of
it, and a write changes it at one key, or nothing if it fails; prefixes of different identities
have one length, so no other table's content changes.
-/

namespace StrataDb.Sql

open ByteCodec OrderedMap PrefixRange Runs
open Filesystem (Block Crc32c Verifies)
open Store (DiskEngine Holds)
open Lsm (FastBloom)
open Function (update update_of_ne update_self)

/-! ### Identities -/

theorem RowKey.tablePrefix_inj {p p' : ProjectId} {d d' : DatasetId} {t t' : TableId}
    {tr tr' : TruncationId} (h : tablePrefix p d t tr = tablePrefix p' d' t' tr') :
    p = p' ∧ d = d' ∧ t = t' ∧ tr = tr' := by
  have hlen (a b : Uuid) : a.bytes.length = b.bytes.length := a.length_eq.trans b.length_eq.symm
  obtain ⟨hp, h⟩ := List.append_inj h (hlen _ _)
  obtain ⟨hd, h⟩ := List.append_inj h (hlen _ _)
  obtain ⟨ht, h⟩ := List.append_inj h (hlen _ _)
  have hcount := congrArg beNat h
  rw [beNat_beBytes_of_lt tr.count.toNat_lt, beNat_beBytes_of_lt tr'.count.toNat_lt] at hcount
  exact ⟨congrArg ProjectId.mk (Uuid.bytes_inj.mp hp), congrArg DatasetId.mk (Uuid.bytes_inj.mp hd),
    congrArg TableId.mk (Uuid.bytes_inj.mp ht),
    congrArg TruncationId.mk (UInt64.toNat_inj.mp hcount)⟩

namespace TableHandle

def identity (h : TableHandle) : ProjectId × DatasetId × TableId × TruncationId :=
  (h.projectId, h.datasetId, h.tableId, h.truncationId)

theorem length_tablePrefix (h : TableHandle) : h.tablePrefix.length = RowKey.PREFIX_BYTES :=
  RowKey.length_tablePrefix ..

theorem rowKey_inj {h h' : TableHandle} {u u' : Bytes} :
    h.rowKey u = h'.rowKey u' ↔ h.identity = h'.identity ∧ u = u' := by
  rw [rowKey_eq, rowKey_eq]
  constructor
  · intro heq
    obtain ⟨hpre, hu⟩ := List.append_inj heq (h.length_tablePrefix.trans h'.length_tablePrefix.symm)
    obtain ⟨hp, hd, ht, htr⟩ := RowKey.tablePrefix_inj hpre
    exact ⟨by simp only [identity, hp, hd, ht, htr], hu⟩
  · rintro ⟨hid, rfl⟩
    simp only [identity, Prod.mk.injEq] at hid
    simp only [tablePrefix, hid]

def content (h : TableHandle) (m : Bytes → Option Bytes) (userKey : Bytes) :
    Option Bytes := m (h.rowKey userKey)

theorem content_update (h h' : TableHandle) (m : Bytes → Option Bytes) (u : Bytes)
    (v : Option Bytes) :
    h'.content (update m (h.rowKey u) v) =
      if h.identity = h'.identity then update (h'.content m) u v else h'.content m := by
  funext u'
  split_ifs with hid
  · by_cases hu : u' = u
    · subst hu
      have hkey : h'.rowKey u' = h.rowKey u' := rowKey_inj.mpr ⟨hid.symm, rfl⟩
      rw [update_self, content, hkey, update_self]
    · have hkey : h'.rowKey u' ≠ h.rowKey u := fun heq => hu (rowKey_inj.mp heq).2
      rw [update_of_ne hu, content, update_of_ne hkey, content]
  · have hkey : h'.rowKey u' ≠ h.rowKey u := fun heq => hid (rowKey_inj.mp heq).1.symm
    rw [content, update_of_ne hkey, content]

def lookup (rt : Runtime) (h : TableHandle) (content : Bytes → Option Bytes) (key : Value) :
    Outcome (Option Tuple) := do
  let userKey ← userKey key
  match content userKey with
  | none => return none
  | some bytes => (decodeRow rt h.schema bytes).map some

theorem lookup_bytes (rt : Runtime) (h : TableHandle) (content : Bytes → Option Bytes)
    (key : Bytes) :
    h.lookup rt content (.bytes key)
      = (content key).elim (.ok none) fun bytes => (decodeRow rt h.schema bytes).map some := by
  have hkey : userKey (.bytes key) = .ok key := rfl
  rw [lookup, hkey]
  cases hcontent : content key <;> simp [bind, Except.bind, hcontent, pure, Except.pure]

end TableHandle

/-- The pairs of a map whose keys are in a range, by ascending key. -/
structure Listed (content : Bytes → Option Bytes) (range : Bound Bytes × Bound Bytes)
    (rows : List (Bytes × Bytes)) :
    Prop where
  sorted : rows.Pairwise (fun a b => a.1 < b.1)
  mem : ∀ key value, (key, value) ∈ rows ↔ inBounds range.1 range.2 key = true
    ∧ content key = some value

theorem Listed.unique {content : Bytes → Option Bytes} {range : Bound Bytes × Bound Bytes}
    {rows rows' : List (Bytes × Bytes)} (h : Listed content range rows)
    (h' : Listed content range rows') : rows = rows' :=
  Lsm.pairs_unique h.sorted h'.sorted fun p => (h.mem p.1 p.2).trans (h'.mem p.1 p.2).symm

section Calls

variable {rt : Runtime} {B : FastBloom} {crc32 : Bytes → UInt32} {crc : Crc32c}
  {hash : Bytes → UInt32}
  {m : Bytes → Option Bytes} {pages : Nat} {e : DiskEngine}

theorem TableReader.get_eq (rt : Runtime) (hash : Bytes → UInt32) (h : TableReader)
    (hholds : Holds B crc m pages e) (key : Value) :
    ∃ e', h.get rt B crc hash e key = (h.lookup rt (h.content m) key, e')
      ∧ Holds B crc m pages e' := by
  rw [TableReader.get, TableHandle.lookup]
  cases userKey key with
  | error f => exact ⟨e, rfl, hholds⟩
  | ok u =>
    obtain ⟨e', hget, hholds'⟩ := hholds.get hash (h.rowKey u)
    refine ⟨e', ?_, hholds'⟩
    dsimp only
    rw [hget]
    show _ = (match m (h.rowKey u) with
      | none => _
      | some bytes => _, e')
    cases m (h.rowKey u) <;> rfl

/-- **A scan of a table** gives the rows of its content whose keys are in the range. -/
theorem TableReader.scan_eq (rt : Runtime) (hash : Bytes → UInt32) (h : TableReader)
    (hholds : Holds B crc m pages e) {options : ScanOptions}
    (hrange : reversed options.range.1 options.range.2 = false ∨ e.index.mem.inner.entries = []) :
    ∃ rows e', h.scan rt B crc hash e options
      = (.ok (rows.map fun row => decodeRow rt h.schema row.2), e')
      ∧ Holds B crc m pages e' ∧ Listed (h.content m) options.range rows := by
  rw [← reversed_tableRange h.tablePrefix] at hrange
  obtain ⟨rows, e', hscan, hholds', hsorted, hmem⟩ := hholds.scan hash hrange
  -- a key of the range is the prefix and a user key
  have hkeys : ∀ row ∈ rows, h.tablePrefix ++ row.1.drop RowKey.PREFIX_BYTES = row.1 := by
    intro row hrow
    obtain ⟨u, hu, -⟩ := inBounds_tableRange.mp ((hmem row.1 row.2).mp hrow).1
    rw [hu, ← h.length_tablePrefix, List.drop_left]
  refine ⟨rows.map fun row => (row.1.drop RowKey.PREFIX_BYTES, row.2), e', ?_, hholds', ?_,
    fun u v => ?_⟩
  · rw [TableReader.scan]
    simp only [hscan, List.map_map]
    rfl
  · rw [List.pairwise_map]
    refine hsorted.imp_of_mem fun {a b} ha hb hlt => ?_
    rw [← hkeys a ha, ← hkeys b hb] at hlt
    exact (append_lt_append _ _ _).mp hlt
  · rw [List.mem_map, TableHandle.content, TableHandle.rowKey_eq]
    constructor
    · rintro ⟨row, hrow, heq⟩
      obtain ⟨rfl, rfl⟩ := Prod.mk.inj heq
      obtain ⟨hin, hvalue⟩ := (hmem row.1 row.2).mp hrow
      obtain ⟨u, hu, hin⟩ := inBounds_tableRange.mp hin
      have hdrop : row.1.drop RowKey.PREFIX_BYTES = u := by
        rw [hu, ← h.length_tablePrefix, List.drop_left]
      rw [hdrop, ← hu]
      exact ⟨hin, hvalue⟩
    · rintro ⟨hin, hvalue⟩
      refine ⟨(h.tablePrefix ++ u, v), (hmem _ _).mpr ⟨inBounds_tableRange.mpr ⟨u, rfl, hin⟩,
        hvalue⟩, ?_⟩
      rw [← h.length_tablePrefix, List.drop_left]

/-- What an accepted row is stored as: the encoded first column, and the encoded row. -/
def TableHandle.encodeRow (rt : Runtime) (h : TableHandle) (tuple : Tuple) :
    Outcome (Bytes × Bytes) :=
  match tuple with
  | [] => internalError "cannot insert empty tuple"
  | first :: _ => do
    tuple.forM checkValueSize
    let userKey ← userKey first
    return (userKey, ← h.schema.encode rt tuple)

theorem TableWriter.put_eq (rt : Runtime) (crc32 : Bytes → UInt32) (crc : Crc32c)
    (hash : Bytes → UInt32) (h : TableWriter) (e : DiskEngine) (tuple : Tuple) :
    h.put rt crc32 crc hash e tuple =
      match h.encodeRow rt tuple with
      | .error f => (.error f, e)
      | .ok (u, bytes) =>
        ((e.put crc32 crc hash (h.rowKey u) bytes).1.mapError .ofStore,
          (e.put crc32 crc hash (h.rowKey u) bytes).2) := by
  cases tuple with
  | nil => rfl
  | cons first rest =>
    simp only [TableWriter.put, TableHandle.encodeRow, bind, Except.bind]
    cases (first :: rest).forM checkValueSize with
    | error f => rfl
    | ok _ =>
      cases userKey first with
      | error f => rfl
      | ok u => cases h.schema.encode rt (first :: rest) <;> rfl

theorem TableWriter.put_cases (rt : Runtime) (crc32 hash : Bytes → UInt32) (h : TableWriter)
    (hholds : Holds B crc m pages e) (hzero : ¬ Verifies crc Block.zeroed)
    (hpages : pages + 1 < 2 ^ 64) (tuple : Tuple) :
    ∃ r e', h.put rt crc32 crc hash e tuple = (r, e')
      ∧ ((r = .ok () ∧ ∃ u bytes, h.encodeRow rt tuple = .ok (u, bytes)
          ∧ Holds B crc (update m (h.rowKey u) (some bytes)) (pages + 1) e')
        ∨ (∃ f, r = .error f) ∧ Holds B crc m (pages + 1) e') := by
  rw [TableWriter.put_eq]
  cases h.encodeRow rt tuple with
  | error f => exact ⟨_, e, rfl, Or.inr ⟨⟨f, rfl⟩, hholds.mono (Nat.le_succ _)⟩⟩
  | ok row =>
    obtain ⟨u, bytes⟩ := row
    obtain ⟨r, e', hput, ⟨rfl, hholds'⟩ | ⟨⟨f, rfl⟩, hholds'⟩⟩ :=
      hholds.put_cases crc32 hash hzero hpages (h.rowKey u) bytes
    · exact ⟨.ok (), e', by dsimp only; rw [hput]; rfl, Or.inl ⟨rfl, u, bytes, rfl, hholds'⟩⟩
    · exact ⟨.error (.ofStore f), e', by dsimp only; rw [hput]; rfl, Or.inr ⟨⟨_, rfl⟩, hholds'⟩⟩

theorem TableWriter.delete_cases (crc32 : Bytes → UInt32) (h : TableWriter)
    (hholds : Holds B crc m pages e) (key : Value) :
    ∃ r e', h.delete crc32 e key = (r, e')
      ∧ ((r = .ok () ∧ ∃ u, userKey key = .ok u ∧ Holds B crc (update m (h.rowKey u) none) pages e')
        ∨ (∃ f, r = .error f) ∧ Holds B crc m pages e') := by
  rw [TableWriter.delete]
  cases userKey key with
  | error f => exact ⟨_, e, rfl, Or.inr ⟨⟨f, rfl⟩, hholds⟩⟩
  | ok u =>
    obtain ⟨r, e', hdelete, ⟨rfl, hholds'⟩ | ⟨⟨f, rfl⟩, hholds'⟩⟩ :=
      hholds.delete_cases crc32 (h.rowKey u)
    · exact ⟨.ok (), e', by dsimp only; rw [hdelete]; rfl, Or.inl ⟨rfl, u, rfl, hholds'⟩⟩
    · exact ⟨.error (.ofStore f), e', by dsimp only; rw [hdelete]; rfl, Or.inr ⟨⟨_, rfl⟩, hholds'⟩⟩

end Calls
end StrataDb.Sql
