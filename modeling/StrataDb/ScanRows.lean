import StrataDb.EngineRefinement
import StrataDb.TableContent
import StrataDb.TableScans
import StrataDb.BindInsert

/-!
# What a table scan yields (`crates/strata-db/src/storage/table_api.rs`)

The rows whose keys are in the range, by ascending key. A scan never reads the predicate of its
options, and from above a key to below the same key it panics as soon as the memtable has an
entry.
-/

namespace StrataDb.Store

open ByteCodec Filesystem
open Lsm (FastBloom LsmConfig)
open Crc (crc32)

theorem exists_holds_one (B : FastBloom) (config : LsmConfig) (capacity : Nat) (key : Bytes)
    {value : Bytes} (hfits : value.length ≤ maxTuple) :
    ∃ e₀ e : DiskEngine, DiskEngine.open crc32 crc32 {} config (.withCapacity capacity) = .ok e₀
      ∧ e₀.put crc32 castagnoli crc32 key value = (.ok (), e)
      ∧ Holds B castagnoli (Function.update (fun _ => none) key (some value)) 2 e
      ∧ e.index.mem.inner.entries ≠ [] := by
  obtain ⟨t₀, hcreate, -, -, hmem, -, hseq⟩ := Lsm.create_ok crc32 config capacity
  obtain ⟨h₀, h₁, hheap, hinsert, -⟩ := @heap_first_insert HEAP_FRAMES castagnoli value crc32
    not_verifies_castagnoli_zeroed (by decide) hfits
  have hmax : (0 : UInt64) ≠ Lsm.U64_MAX := by decide +kernel
  obtain ⟨inner, hentries, -, -, hput⟩ := Lsm.write_of_empty crc32 (hseq.trans_ne hmax)
    (show t₀.mem.inner.entries = [] by rw [hmem]; rfl) key (TupleLoc.encode ⟨1, 0⟩) .put
  have hopen : DiskEngine.open crc32 crc32 {} config (.withCapacity capacity) = .ok ⟨t₀, h₀⟩ :=
    DiskEngine.open_eq_ok.mpr ⟨hcreate, hheap⟩
  let t₁ : Lsm :=
    { t₀ with mem := t₀.logged crc32 (t₀.record key (TupleLoc.encode ⟨1, 0⟩) .put) inner, seq :=
      t₀.seq + 1 }
  have hrun : (⟨t₀, h₀⟩ : DiskEngine).put crc32 castagnoli crc32 key value = (.ok (), ⟨t₁, h₁⟩) :=
    StorageEngine.put_of_insert (e := ⟨t₀, h₀⟩) hinsert hput
  refine ⟨_, _, hopen, hrun, ?_, ?_⟩
  · obtain ⟨r, e', hrun', ⟨-, hholds⟩ | ⟨⟨f, rfl⟩, -⟩⟩ :=
      (holds_create B castagnoli hopen).put_cases crc32 crc32
      not_verifies_castagnoli_zeroed (by decide) key value
    · obtain ⟨-, rfl⟩ := Prod.mk.inj (hrun.symm.trans hrun')
      exact hholds
    · cases congrArg Prod.fst (hrun.symm.trans hrun')
  · show inner.entries ≠ []
    rw [hentries]
    exact List.cons_ne_nil _ _

end StrataDb.Store

namespace StrataDb.Sql

open ByteCodec OrderedMap PrefixRange
open Filesystem (Crc32c castagnoli)
open Store (DiskEngine Holds)
open Lsm (FastBloom)
open Crc (crc32)

def ScanOptions.admits (options : ScanOptions) (row : Outcome Tuple) : Bool :=
  match options.predicate, row with
  | some predicate, .ok tuple => predicate tuple
  | _, _ => true

section Scan

variable {rt : Runtime} {B : FastBloom} {crc : Crc32c} {hash : Bytes → UInt32}
  {m : Bytes → Option Bytes}
  {pages : Nat} {e : DiskEngine}

/-- What the options of a scan ask for: the rows of the range that the predicate admits, by
    ascending key. -/
def ScanYields (rt : Runtime) (h : TableReader) (content : Bytes → Option Bytes)
    (options : ScanOptions) (result : Outcome RowStream) : Prop :=
  ∃ rows, Listed content options.range rows
    ∧ result = .ok ((rows.map fun row => decodeRow rt h.schema row.2).filter options.admits)

/-- **When a table scan yields what its options ask for**: when the range is the right way
    around, or the memtable empty, and every stored row of the range meets the predicate.
    The ranges of prefixes are always the right way around. -/
theorem table_scan_yields (rt : Runtime) (hash : Bytes → UInt32) {B : FastBloom} {crc : Crc32c}
    {m : Bytes → Option Bytes} {pages : Nat} {e : DiskEngine} (hholds : Holds B crc m pages e)
    (h : TableReader) (options : ScanOptions) :
    (ScanYields rt h (h.content m) options (h.scan rt B crc hash e options).1 ↔
      (reversed options.range.1 options.range.2 = false ∨ e.index.mem.inner.entries = [])
        ∧ ∀ key bytes, inBounds options.range.1 options.range.2 key = true →
          h.content m key = some bytes →
          options.admits (decodeRow rt h.schema bytes) = true)
      ∧ ∀ start, start ≠ [] →
        reversed (options.withPrefix start).range.1 (options.withPrefix start).range.2 = false
          ∧ ∀ key, inBounds (options.withPrefix start).range.1 (options.withPrefix start).range.2
            key = true
            ↔ start <+: key := by
  refine ⟨?_, fun start hstart => withPrefix_range options hstart⟩
  by_cases hfine : reversed options.range.1 options.range.2 = false ∨ e.index.mem.inner.entries = []
  · obtain ⟨rows, e', hscan, -, hlisted⟩ := h.scan_eq rt hash hholds hfine
    have hmem (row : Bytes × Bytes) : row ∈ rows ↔
        inBounds options.range.1 options.range.2 row.1 = true ∧ h.content m row.1 = some row.2 :=
      hlisted.mem row.1 row.2
    rw [and_iff_right hfine, hscan]
    constructor
    · rintro ⟨rows', hlisted', hall⟩ key bytes hin hbytes
      obtain rfl := hlisted.unique hlisted'
      have hself := List.filter_eq_self.mp (Except.ok.inj hall).symm
      exact hself _ (List.mem_map_of_mem ((hmem (key, bytes)).mpr ⟨hin, hbytes⟩))
    · intro hadmits
      refine ⟨rows, hlisted, congrArg Except.ok (List.filter_eq_self.mpr fun row hrow => ?_).symm⟩
      obtain ⟨pair, hpair, rfl⟩ := List.mem_map.mp hrow
      obtain ⟨hin, hbytes⟩ := (hmem pair).mp hpair
      exact hadmits pair.1 pair.2 hin hbytes
  · refine iff_of_false ?_ fun hcond => hfine hcond.1
    rintro ⟨rows, -, hok⟩
    rcases @TableReader.scan_cases _ _ _ _ _ rt B crc hash h e options with
      ⟨-, -, hscan⟩ | ⟨hfine', -⟩
    · cases hscan.symm.trans hok
    · exact hfine hfine'

end Scan

/-! ### A table with one row -/

def integers : TableHandle :=
  .new (oneColumnTable .int64)

def oneKey : Bytes := encodeKeyI64 1

def oneRow : Bytes := 0 :: leBytes 8 1

theorem encodeRow_one : integers.encodeRow default [.int64 1] = .ok (oneKey, oneRow) := by
  decide +kernel

theorem decodeRow_one : decodeRow default integers.schema oneRow = .ok [.int64 1] :=
  rfl

theorem exists_holds_integers : ∃ e₀ e : DiskEngine,
    DiskEngine.open crc32 crc32 {} .default (.withCapacity Lsm.DEFAULT_CAPACITY) = .ok e₀
      ∧ TableWriter.put default crc32 castagnoli crc32 integers e₀ [.int64 1] = (.ok (), e)
      ∧ Holds .full castagnoli (Function.update (fun _ => none) (integers.rowKey oneKey)
        (some oneRow)) 2 e
      ∧ e.index.mem.inner.entries ≠ [] := by
  obtain ⟨e₀, e, hopen, hput, hholds, hne⟩ :=
    Store.exists_holds_one .full .default Lsm.DEFAULT_CAPACITY
    (integers.rowKey oneKey) (show oneRow.length ≤ Filesystem.maxTuple by decide +kernel)
  refine ⟨e₀, e, hopen, ?_, hholds, hne⟩
  rw [TableWriter.put_eq, encodeRow_one]
  dsimp only
  rw [hput]
  rfl

theorem listed_integers : Listed
    (integers.content (Function.update (fun _ => none) (integers.rowKey oneKey) (some oneRow)))
    (.unbounded, .unbounded) [(oneKey, oneRow)] where
  sorted := List.pairwise_singleton ..
  mem key value := by
    rw [TableHandle.content_update, if_pos rfl, List.mem_singleton, Prod.mk.injEq,
      Function.update_apply]
    split_ifs with hkey
    · simp [hkey, inBounds, afterStart, beforeEnd, eq_comm]
    · simp [hkey, TableHandle.content]

/-- With a predicate true of every row a scan yields every row. -/
theorem table_scan_yields_integers : ∃ e : DiskEngine,
    ScanYields default integers
      (integers.content (Function.update (fun _ => none) (integers.rowKey oneKey) (some oneRow)))
      { predicate := some fun _ => true }
      (TableReader.scan default .full castagnoli crc32 integers e
        { predicate := some fun _ => true }).1 := by
  obtain ⟨-, e, -, -, hholds, -⟩ := exists_holds_integers
  refine ⟨e, ((table_scan_yields default crc32 hholds integers _).1).mpr
    ⟨Or.inl rfl, fun _ bytes _ _ => ?_⟩⟩
  cases decodeRow default integers.schema bytes <;> rfl

/-- With a predicate false of every row a scan yields every row too; and the scan from above
    the row's key to below it, which asks for none, panics. -/
theorem table_scan_ignores_predicate : ∃ e₀ e : DiskEngine,
    DiskEngine.open crc32 crc32 {} .default (.withCapacity Lsm.DEFAULT_CAPACITY) = .ok e₀
      ∧ TableWriter.put default crc32 castagnoli crc32 integers e₀ [.int64 1] = (.ok (), e)
      ∧ (TableReader.scan default .full castagnoli crc32 integers e
        { predicate := some fun _ => false }).1
        = .ok [.ok [.int64 1]]
      ∧ (TableReader.scan default .full castagnoli crc32 integers e
          { range := (.excluded oneKey, .excluded oneKey) }).1
        = .error (.panicked "range start is greater than range end in BTreeMap") := by
  obtain ⟨e₀, e, hopen, hput, hholds, hne⟩ := exists_holds_integers
  refine ⟨e₀, e, hopen, hput, ?_, ?_⟩
  · obtain ⟨rows, e', hscan, -, hlisted⟩ :=
      @TableReader.scan_eq _ _ _ _ _ default crc32 integers hholds
      { predicate := some fun _ => false } (Or.inl rfl)
    obtain rfl := listed_integers.unique hlisted
    rw [hscan, List.map_singleton, decodeRow_one]
  · rcases @TableReader.scan_cases _ _ _ _ _ default .full castagnoli crc32 integers e
      { range := (.excluded oneKey, .excluded oneKey) } with ⟨-, -, hscan⟩ | ⟨hfine, -⟩
    · exact hscan
    · rcases hfine with hrange | hempty
      · cases hrange
      · exact absurd hempty hne

end StrataDb.Sql
