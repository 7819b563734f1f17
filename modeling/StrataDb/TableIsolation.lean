import StrataDb.EngineRefinement
import StrataDb.ScanRows

/-!
# Tables do not see each other's writes (`crates/strata-db/src/storage/table_api.rs`, `row.rs`)

A row key is the identity of its table, of fixed width, and then the user's key. What tables do
share is the memtable: a scan from above a key to below the same key gives no row as long as it is
empty, and panics once there is an entry, of whichever table.
-/

namespace StrataDb.Lsm

open ByteCodec

theorem entries_write_ne_nil (crc : Bytes → UInt32) {t : Lsm} (h : t.mem.inner.entries ≠ [])
    (key value : Bytes) (op : OpType) : (t.write crc key value op).2.mem.inner.entries ≠ [] := by
  by_cases hseq : t.seq = U64_MAX
  · rw [write, if_pos hseq]
    exact h
  · rcases write_cases crc hseq key value op with ⟨inner, hput, hwrite⟩ | ⟨-, hwrite⟩
    · rw [hwrite]
      have hstore := (BTreeMemtable.put_ok hput).1
      show inner.entries ≠ []
      rw [BTreeMemtable.entries, hstore, ne_eq, List.map_eq_nil_iff, OrderedMap.insert]
      exact OrderedMap.insertEntry_ne_nil _ _ _
    · rw [hwrite]
      exact h

end StrataDb.Lsm

namespace StrataDb.Sql

open ByteCodec OrderedMap
open Filesystem (Block Crc32c Verifies castagnoli)
open Store (DiskEngine Holds)
open Lsm (FastBloom)
open Crc (crc32)

inductive TableWrite where
  | put (tuple : Tuple)
  | delete (key : Value)

section Isolation

variable {rt : Runtime} {B : FastBloom} {crc32 : Bytes → UInt32} {crc : Crc32c}
  {hash : Bytes → UInt32}
  {m : Bytes → Option Bytes} {pages : Nat} {e : DiskEngine} {h h' : TableHandle}

def TableWrite.after (rt : Runtime) (crc32 : Bytes → UInt32) (crc : Crc32c) (hash : Bytes → UInt32)
    (h : TableWriter) (e : DiskEngine) : TableWrite → DiskEngine
  | put tuple => (h.put rt crc32 crc hash e tuple).2
  | delete key => (h.delete crc32 e key).2

theorem TableWrite.content_after (w : TableWrite) (hholds : Holds B crc m pages e)
    (hzero : ¬ Verifies crc Block.zeroed) (hpages : pages + 1 < 2 ^ 64)
    (hne : h.identity ≠ h'.identity) :
    ∃ m', Holds B crc m' (pages + 1) (w.after rt crc32 crc hash h e)
      ∧ h'.content m' = h'.content m := by
  have hother (u : Bytes) (v : Option Bytes) :
      h'.content (Function.update m (h.rowKey u) v) = h'.content m := by
    rw [TableHandle.content_update, if_neg hne]
  cases w with
  | put tuple =>
    obtain ⟨r, e', hput, hcases⟩ := TableWriter.put_cases rt crc32 hash h hholds hzero hpages tuple
    rw [TableWrite.after, hput]
    rcases hcases with ⟨-, u, bytes, -, hholds'⟩ | ⟨-, hholds'⟩
    · exact ⟨_, hholds', hother u (some bytes)⟩
    · exact ⟨m, hholds', rfl⟩
  | delete key =>
    obtain ⟨r, e', hdelete, hcases⟩ := TableWriter.delete_cases crc32 h hholds key
    rw [TableWrite.after, hdelete]
    rcases hcases with ⟨-, u, -, hholds'⟩ | ⟨-, hholds'⟩
    · exact ⟨_, hholds'.mono (Nat.le_succ _), hother u none⟩
    · exact ⟨m, hholds'.mono (Nat.le_succ _), rfl⟩

theorem TableWrite.index_after (rt : Runtime) (crc32 : Bytes → UInt32) (crc : Crc32c)
    (hash : Bytes → UInt32) (h : TableWriter) (e : DiskEngine) (w : TableWrite) :
    (w.after rt crc32 crc hash h e).index = e.index
      ∨ ∃ key value op, (w.after rt crc32 crc hash h e).index
        = (e.index.write crc32 key value op).2 := by
  cases w with
  | put tuple =>
    rw [TableWrite.after, TableWriter.put_eq]
    cases h.encodeRow rt tuple with
    | error f => exact Or.inl rfl
    | ok row =>
      dsimp only
      rw [Store.StorageEngine.put]
      split
      · exact Or.inl rfl
      · exact Or.inr ⟨_, _, _, rfl⟩
  | delete key =>
    rw [TableWrite.after, TableWriter.delete]
    cases userKey key with
    | error f => exact Or.inl rfl
    | ok u => exact Or.inr ⟨_, _, _, rfl⟩

theorem TableWrite.entries_after (w : TableWrite) (hne : e.index.mem.inner.entries ≠ []) :
    (w.after rt crc32 crc hash h e).index.mem.inner.entries ≠ [] := by
  rcases w.index_after rt crc32 crc hash h e with hindex | ⟨key, value, op, hindex⟩
  · rwa [hindex]
  · rw [hindex]
    exact Lsm.entries_write_ne_nil crc32 hne key value op

theorem entries_after_delete (hempty : e.index.mem.inner.entries = [])
    (hseq : e.index.seq ≠ Lsm.U64_MAX) :
    ((TableWrite.delete (.int64 0)).after rt crc32 crc hash h e).index.mem.inner.entries ≠ [] := by
  obtain ⟨inner, hentries, -, -, hwrite⟩ := Lsm.write_of_empty crc32 hseq hempty
    (h.rowKey (encodeKeyI64 0)) [] .delete
  have hindex : ((TableWrite.delete (.int64 0)).after rt crc32 crc hash h e).index
      = (e.index.write crc32 (h.rowKey (encodeKeyI64 0)) [] .delete).2 := rfl
  rw [hindex, hwrite]
  show inner.entries ≠ []
  rw [hentries]
  exact List.cons_ne_nil _ _

theorem TableWrite.get_after (w : TableWrite) (hholds : Holds B crc m pages e)
    (hzero : ¬ Verifies crc Block.zeroed) (hpages : pages + 1 < 2 ^ 64)
    (hne : h.identity ≠ h'.identity) (key : Value) :
    (TableReader.get rt B crc hash h' (w.after rt crc32 crc hash h e) key).1
      = (TableReader.get rt B crc hash h' e key).1 := by
  obtain ⟨m', hholds', hcontent⟩ :=
    @TableWrite.content_after rt B crc32 crc hash m pages e h h' w hholds hzero
    hpages hne
  obtain ⟨_, hbefore, -⟩ := TableReader.get_eq rt hash h' hholds key
  obtain ⟨_, hafter, -⟩ := TableReader.get_eq rt hash h' hholds' key
  rw [hbefore, hafter, hcontent]

theorem TableWrite.scan_after (w : TableWrite) (hholds : Holds B crc m pages e)
    (hzero : ¬ Verifies crc Block.zeroed) (hpages : pages + 1 < 2 ^ 64)
    (hne : h.identity ≠ h'.identity) {options : ScanOptions}
    (hrange : reversed options.range.1 options.range.2 = false) :
    (TableReader.scan rt B crc hash h' (w.after rt crc32 crc hash h e) options).1
      = (TableReader.scan rt B crc hash h' e options).1 := by
  obtain ⟨m', hholds', hcontent⟩ :=
    @TableWrite.content_after rt B crc32 crc hash m pages e h h' w hholds hzero
    hpages hne
  obtain ⟨rows, _, hbefore, -, hlisted⟩ := TableReader.scan_eq rt hash h' hholds (Or.inl hrange)
  obtain ⟨rows', _, hafter, -, hlisted'⟩ := TableReader.scan_eq rt hash h' hholds' (Or.inl hrange)
  rw [hcontent] at hlisted'
  rw [hbefore, hafter, hlisted.unique hlisted']

/-- **Tables do not interfere.**  Whatever is put or deleted through one identity, no lookup
    through another changes, and no scan of a prefix; a scan of a range changes for no write
    exactly if the memtable takes the range, or has an entry already and rejects it before
    the write as after, or no write is accepted any more. -/
theorem tables_do_not_interfere (rt : Runtime) (B : FastBloom) (crc32 hash : Bytes → UInt32)
    {crc : Crc32c} (hzero : ¬ Verifies crc Block.zeroed) {m : Bytes → Option Bytes} {pages : Nat}
    {e : DiskEngine} (hholds : Holds B crc m pages e) (hpages : pages + 1 < 2 ^ 64)
    {h h' : TableHandle} (hne : h.identity ≠ h'.identity) :
    (∀ (w : TableWrite) (key : Value),
      (TableReader.get rt B crc hash h' (w.after rt crc32 crc hash h e) key).1
      = (TableReader.get rt B crc hash h' e key).1)
    ∧ (∀ (w : TableWrite) (start : Bytes),
      (TableReader.scan rt B crc hash h' (w.after rt crc32 crc hash h e)
        (({} : ScanOptions).withPrefix start)).1
        = (TableReader.scan rt B crc hash h' e (({} : ScanOptions).withPrefix start)).1)
    ∧ ∀ options : ScanOptions, (∀ w : TableWrite,
        (TableReader.scan rt B crc hash h' (w.after rt crc32 crc hash h e) options).1
          = (TableReader.scan rt B crc hash h' e options).1)
      ↔ reversed options.range.1 options.range.2 = false ∨ e.index.mem.inner.entries ≠ []
        ∨ e.index.seq = Lsm.U64_MAX := by
  refine ⟨fun w key => w.get_after hholds hzero hpages hne key, fun w start => ?_,
    fun options => ?_⟩
  · refine w.scan_after hholds hzero hpages hne ?_
    by_cases hstart : start = []
    · subst hstart
      rfl
    · exact (withPrefix_range {} hstart).1
  · have hpanic {e : DiskEngine} (hrange : ¬ reversed options.range.1 options.range.2 = false)
        (hentries : e.index.mem.inner.entries ≠ []) : (TableReader.scan rt B crc hash h' e
          options).1
          = .error (.panicked "range start is greater than range end in BTreeMap") := by
      rcases TableReader.scan_cases h' e options with ⟨-, -, hscan⟩ | ⟨hfine, -⟩
      · exact hscan
      · exact absurd hfine (not_or.mpr ⟨hrange, hentries⟩)
    constructor
    · intro hsame
      by_contra hnot
      obtain ⟨hrange, hrest⟩ := not_or.mp hnot
      obtain ⟨hentries, hseq⟩ := not_or.mp hrest
      have hempty := not_not.mp hentries
      have hafter := hsame (.delete (.int64 0))
      rw [hpanic hrange (entries_after_delete hempty hseq)] at hafter
      obtain ⟨rows, _, hbefore, -⟩ := TableReader.scan_eq rt hash h' hholds (Or.inr hempty)
      rw [hbefore] at hafter
      cases hafter
    · intro hcond w
      by_cases hrange : reversed options.range.1 options.range.2 = false
      · exact w.scan_after hholds hzero hpages hne hrange
      · rcases hcond with hcond | hentries | hseq
        · exact absurd hcond hrange
        · rw [hpanic hrange hentries, hpanic hrange (w.entries_after hentries)]
        · -- no write is accepted, so the index stays as it is
          have hindex : (w.after rt crc32 crc hash h e).index = e.index := by
            rcases w.index_after rt crc32 crc hash h e with hindex | ⟨key, value, op, hindex⟩
            · exact hindex
            · rw [hindex, Lsm.write, if_pos hseq]
          by_cases hentries : e.index.mem.inner.entries = []
          · obtain ⟨m', hholds', hcontent⟩ :=
              @TableWrite.content_after rt B crc32 crc hash m pages e h h' w hholds
              hzero hpages hne
            obtain ⟨rows, _, hbefore, -, hlisted⟩ :=
              TableReader.scan_eq rt hash h' hholds (Or.inr hentries)
            obtain ⟨rows', _, hafter, -, hlisted'⟩ := TableReader.scan_eq rt hash h' hholds'
              (Or.inr (by rw [hindex]; exact hentries))
            rw [hcontent] at hlisted'
            rw [hbefore, hafter, hlisted.unique hlisted']
          · rw [hpanic hrange hentries, hpanic hrange (by rw [hindex]; exact hentries)]

end Isolation

/-- A table whose identifiers have all their bytes equal. -/
def tableOf (n : UInt8) : TableHandle where
  projectId := ⟨⟨List.replicate 16 n, List.length_replicate⟩⟩
  datasetId := ⟨⟨List.replicate 16 n, List.length_replicate⟩⟩
  tableId := ⟨⟨List.replicate 16 n, List.length_replicate⟩⟩
  truncationId := ⟨Lsm.U64_MAX⟩
  schema := ⟨[]⟩

theorem exists_fresh : ∃ e : DiskEngine, Holds .full castagnoli (fun _ => none) 1 e
    ∧ e.index.mem.inner.entries = [] ∧ e.index.seq ≠ Lsm.U64_MAX := by
  obtain ⟨t, hcreate, -, -, hmem, -, hseq⟩ := Lsm.create_ok crc32 .default Lsm.DEFAULT_CAPACITY
  obtain ⟨heap, hheap, -⟩ := Filesystem.heapReady_create castagnoli crc32 Store.HEAP_FRAMES
  have hmax : (0 : UInt64) ≠ Lsm.U64_MAX := by decide +kernel
  exact ⟨⟨t, heap⟩, Store.holds_create .full castagnoli
    (Store.DiskEngine.open_eq_ok.mpr ⟨hcreate, hheap⟩),
    by rw [hmem]; rfl, hseq.trans_ne hmax⟩

/-- A row with key 1 is in one table; key 1 is deleted in another. -/
theorem tables_do_not_interfere_one_row : ∃ e : DiskEngine,
    (TableReader.get default .full castagnoli crc32 integers
        ((TableWrite.delete (.int64 1)).after default crc32 castagnoli crc32 (tableOf 0xff) e)
        (.int64 1)).1
      = .ok (some [.int64 1])
    ∧ (TableReader.scan default .full castagnoli crc32 integers
        ((TableWrite.delete (.int64 1)).after default crc32 castagnoli crc32 (tableOf 0xff) e)
        (({} : ScanOptions).withPrefix oneKey)).1
      = (TableReader.scan default .full castagnoli crc32 integers e
        (({} : ScanOptions).withPrefix oneKey)).1 := by
  obtain ⟨-, e, -, -, hholds, -⟩ := exists_holds_integers
  obtain ⟨hget, hscan, -⟩ := tables_do_not_interfere default .full crc32 crc32
    Filesystem.not_verifies_castagnoli_zeroed hholds (by decide)
    (show (tableOf 0xff).identity ≠ integers.identity by decide)
  obtain ⟨_, hrow, -⟩ := TableReader.get_eq default crc32 integers hholds (.int64 1)
  exact ⟨e, (hget _ _).trans (congrArg Prod.fst hrow), hscan _ _⟩

/-- In a fresh engine, the scan from above a key to below the same key gives no row; after a
    delete in another table it panics. -/
theorem other_tables_write_breaks_scan :
    ∃ e : DiskEngine, Holds .full castagnoli (fun _ => none) 1 e
    ∧ (TableReader.scan default .full castagnoli crc32 (tableOf 0xff) e
      { range := (.excluded [1], .excluded [1]) }).1
      = .ok []
    ∧ (TableReader.scan default .full castagnoli crc32 (tableOf 0xff)
        ((TableWrite.delete (.int64 0)).after default crc32 castagnoli crc32 (tableOf 0) e)
        { range := (.excluded [1], .excluded [1]) }).1
      = .error (.panicked "range start is greater than range end in BTreeMap") := by
  obtain ⟨e, hholds, hempty, hseq⟩ := exists_fresh
  refine ⟨e, hholds, ?_, ?_⟩
  · obtain ⟨rows, e', hscan, -, hlisted⟩ :=
      @TableReader.scan_eq _ _ _ _ _ default crc32 (tableOf 0xff) hholds
      { range := (.excluded [1], .excluded [1]) } (Or.inr hempty)
    have hnone : rows = [] := List.eq_nil_iff_forall_not_mem.mpr fun row hrow =>
      nomatch ((hlisted.mem row.1 row.2).mp hrow).2
    rw [hscan, hnone]
    rfl
  · rcases @TableReader.scan_cases _ _ _ _ _ default .full castagnoli crc32 (tableOf 0xff)
      ((TableWrite.delete (.int64 0)).after default crc32 castagnoli crc32 (tableOf 0) e)
      { range := (.excluded [1], .excluded [1]) } with ⟨-, -, hscan⟩ | ⟨hrange | hentries, -⟩
    · exact hscan
    · cases hrange
    · exact absurd hentries (entries_after_delete hempty hseq)

end StrataDb.Sql
