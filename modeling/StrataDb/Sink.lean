import StrataDb.Catalog
import StrataDb.ScanRows
import StrataDb.Volcano

/-!
# Write sinks (`crates/strata-db/src/query/volcano/sink.rs`)

A sink writes row by row. A row that cannot be written ends the statement with an error; the rows
before it stay written.
-/

namespace StrataDb.Sql

open ByteCodec OrderedMap Runs
open Commands
open Filesystem (Block Crc32c Verifies castagnoli)
open Store (DiskEngine Holds)
open Lsm (FastBloom)
open Crc (crc32)

section Sinks

variable {σ : Type} (S : TableStorage σ)

def writeAll (write : Tuple → Command σ Fault Unit) : List Tuple → Nat → Command σ Fault Nat
  | [], count => pure count
  | tuple :: tuples, count => do
    write tuple
    writeAll write tuples (count + 1)

def insert (ctx : QueryContext) (table : Table) (input : PlanNode) : Command σ Fault Nat := do
  let tuples ← .lift (drain ctx input)
  writeAll (S.put (.new table)) tuples 0

def delete (ctx : QueryContext) (table : Table) (input : PlanNode) : Command σ Fault Nat := do
  let tuples ← .lift (drain ctx input)
  writeAll (fun tuple => do
    match tuple with
    | [] => .lift (internalError "delete source has no primary-key column")
    | key :: _ => S.delete (.new table) key) tuples 0

end Sinks

/-- The rows of a table with one more, in the place of the row with its key. -/
def TableHandle.withRow (rt : Runtime) (h : TableHandle) (content : Bytes → Option Bytes)
    (tuple : Tuple) : Bytes → Option Bytes :=
  match h.encodeRow rt tuple with
  | .ok (u, bytes) => Function.update content u (some bytes)
  | .error _ => content

section Insert

variable {rt : Runtime} {B : FastBloom} {crc32 : Bytes → UInt32} {crc : Crc32c}
  {hash : Bytes → UInt32}
  {m : Bytes → Option Bytes} {pages : Nat} {e : DiskEngine} {h : TableHandle}

/-- How the loop ends: every row was written, or the next one is refused by the engine that
    the rows before it have led to. -/
inductive WriteEnds (write : Tuple → Command DiskEngine Fault Unit) (e₁ : DiskEngine)
    (total : Nat) :
    List Tuple → Outcome Nat → DiskEngine → Prop
  | all : WriteEnds write e₁ total [] (.ok total) e₁
  | refused {row : Tuple} {rest : List Tuple} {f : Fault} {e' : DiskEngine}
      (h : write row e₁ = (.error f, e')) : WriteEnds write e₁ total (row :: rest) (.error f) e'

/-- The loop writes the rows before the first that is refused. -/
theorem writeAll_put_cases (hzero : ¬ Verifies crc Block.zeroed) (rows : List Tuple) (count : Nat)
    (hholds : Holds B crc m pages e) (hpages : pages + rows.length < 2 ^ 64) :
    ∃ done rest out e₁ e' m',
      writeAll ((engineStorage rt B crc32 crc hash).put h) rows count e = (out, e')
        ∧ rows = done ++ rest
      ∧ Holds B crc m' (pages + rows.length) e' ∧ h.content m' = done.foldl (h.withRow rt)
        (h.content m)
      ∧ (∀ row ∈ done, ∃ stored, h.encodeRow rt row = .ok stored)
      ∧ writeAll ((engineStorage rt B crc32 crc hash).put h) done count e
        = (.ok (count + done.length), e₁)
      ∧ WriteEnds ((engineStorage rt B crc32 crc hash).put h) e₁ (count + rows.length) rest out
        e' := by
  induction rows generalizing count m pages e with
  | nil => exact ⟨[], [], .ok count, e, e, m, rfl, rfl, hholds, rfl, by simp, rfl, .all⟩
  | cons row rows ih =>
    rw [List.length_cons] at hpages
    obtain ⟨r, e₁, hput, hcases⟩ :=
      TableWriter.put_cases rt crc32 hash h hholds hzero (by omega) row
    have hrun : (engineStorage rt B crc32 crc hash).put h row e = (r, e₁) := hput
    rcases hcases with ⟨rfl, u, bytes, henc, hholds₁⟩ | ⟨⟨f, rfl⟩, hholds₁⟩
    · obtain ⟨done, rest, out, e₂, e', m', hloop, rfl, hholds', hcontent, hdone, hwritten, hends⟩ :=
        ih (count + 1) hholds₁ (by omega)
      refine ⟨row :: done, rest, out, e₂, e', m', (bind_apply_ok hrun).trans hloop, rfl,
        hholds'.mono (by rw [List.length_cons]; omega), ?_,
          List.forall_mem_cons.mpr ⟨⟨_, henc⟩, hdone⟩,
        ?_, ?_⟩
      · rw [hcontent, List.foldl_cons, TableHandle.content_update, if_pos rfl, TableHandle.withRow,
          henc]
      · rw [List.length_cons, Nat.add_comm done.length, ← Nat.add_assoc, ← hwritten]
        exact bind_apply_ok hrun
      · rwa [List.length_cons, Nat.add_comm (done ++ rest).length, ← Nat.add_assoc]
    · exact ⟨[], row :: rows, .error f, e, e₁, m, bind_apply_error hrun, rfl,
        hholds₁.mono (by rw [List.length_cons]; omega), rfl, by simp, rfl, .refused hrun⟩

/-- **An `INSERT` that fails keeps the rows before the one it failed at.**  The rows of the
    statement are written one after the other, each in the place of the row with its key: all
    of them if it returns their number; if it returns an error, those before a row whose put
    is refused.  A scan of the table then gives the rows it had with these, and nothing of
    the others. -/
theorem insert_keeps_rows_before_error (rt : Runtime) (B : FastBloom) (crc32 hash : Bytes → UInt32)
    {crc : Crc32c} (hzero : ¬ Verifies crc Block.zeroed) {m : Bytes → Option Bytes} {pages : Nat}
    {e : DiskEngine} (hholds : Holds B crc m pages e) (ctx : QueryContext) (table : Table)
    (rows : List Tuple) (hpages : pages + rows.length < 2 ^ 64) :
    ∃ done rest out e₁ e' listing,
      insert (engineStorage rt B crc32 crc hash) ctx table (.values rows) e = (out, e')
      ∧ rows = done ++ rest
      ∧ writeAll ((engineStorage rt B crc32 crc hash).put (.new table)) done 0 e
        = (.ok done.length, e₁)
      ∧ WriteEnds ((engineStorage rt B crc32 crc hash).put (.new table)) e₁ rows.length rest out e'
      ∧ (∀ row ∈ done, ∃ stored, (TableHandle.new table).encodeRow rt row = .ok stored)
      ∧ (TableReader.scan rt B crc hash (.new table) e' {}).1
        = .ok (listing.map fun row => decodeRow rt table.schema row.2)
      ∧ Listed (done.foldl ((TableHandle.new table).withRow rt) ((TableHandle.new table).content m))
          (.unbounded, .unbounded) listing := by
  obtain ⟨done, rest, out, e₁, e', m', hloop, hrows, hholds', hcontent, hdone, hwritten, hends⟩ :=
    @writeAll_put_cases rt B crc32 crc hash m pages e (.new table) hzero rows 0 hholds hpages
  obtain ⟨listing, e'', hscan, -, hlisted⟩ :=
    @TableReader.scan_eq _ _ _ _ _ rt hash (.new table) hholds' {} (Or.inl rfl)
  rw [Nat.zero_add] at hwritten hends
  have hdrain : drain ctx (.values rows) = .ok rows := RowStream.collect_ofRows rows
  refine ⟨done, rest, out, e₁, e', listing, ?_, hrows, hwritten, hends, hdone, ?_, ?_⟩
  · rw [insert, hdrain]
    exact hloop
  · rw [hscan]
    rfl
  · rw [← hcontent]
    exact hlisted

end Insert

/-! ### A statement that fails at its second row -/

/-- `INSERT INTO t VALUES (1), (NULL)`. -/
def insertOneAndNull : Insert where
  table := some ⟨[some "t"], "t"⟩
  columns := []
  source := .values [[.value (.number "1")], [.value .null]]

theorem bindInsert_oneAndNull :
    bindInsert (readsNumber 1) noSerde (fun _ _ _ => .ok (oneColumnTable .int64))
    insertOneAndNull = .ok (oneColumnTable .int64, [[.int64 1], [.null]]) :=
  rfl

theorem exists_insert_oneAndNull : ∃ e₀ e : DiskEngine,
    Holds .full castagnoli (fun _ => none) 1 e₀
      ∧ Holds .full castagnoli (Function.update (fun _ => none) (integers.rowKey oneKey)
        (some oneRow)) 2 e
      ∧ (engineStorage (readsNumber 1) .full crc32 castagnoli crc32).put integers [.int64 1] e₀
        = (.ok (), e)
      ∧ insert (engineStorage (readsNumber 1) .full crc32 castagnoli crc32) emptyContext
        (oneColumnTable .int64)
          (.values [[.int64 1], [.null]]) e₀ = (internalError "primary key cannot be null", e) := by
  obtain ⟨e₀, e, hopen, hput, hholds, -⟩ :=
    Store.exists_holds_one .full .default Lsm.DEFAULT_CAPACITY
    (integers.rowKey oneKey) (show oneRow.length ≤ Filesystem.maxTuple by decide +kernel)
  have henc : integers.encodeRow (readsNumber 1) [.int64 1] = .ok (oneKey, oneRow) := by
    decide +kernel
  have hfirst : (engineStorage (readsNumber 1) .full crc32 castagnoli crc32).put integers
    [.int64 1] e₀
      = (.ok (), e) := by
    show TableWriter.put (readsNumber 1) crc32 castagnoli crc32 integers e₀ [.int64 1] = _
    rw [TableWriter.put_eq, henc]
    dsimp only
    rw [hput]
    rfl
  refine ⟨e₀, e, Store.holds_create .full castagnoli hopen, hholds, hfirst, ?_⟩
  exact (bind_apply_ok hfirst).trans rfl

/-- The second row is refused by the engine that the first has led to. -/
theorem insert_keeps_first_row :
    ∃ (e₀ e₁ e' : DiskEngine) (f : Fault) (listing : List (Bytes × Bytes)),
      insert (engineStorage (readsNumber 1) .full crc32 castagnoli crc32) emptyContext
        (oneColumnTable .int64)
          (.values [[.int64 1], [.null]]) e₀ = (.error f, e')
      ∧ writeAll ((engineStorage (readsNumber 1) .full crc32 castagnoli crc32).put integers)
        [[.int64 1]] 0 e₀
        = (.ok 1, e₁)
      ∧ (engineStorage (readsNumber 1) .full crc32 castagnoli crc32).put integers [.null] e₁
        = (.error f, e')
      ∧ (TableReader.scan (readsNumber 1) .full castagnoli crc32 integers e' {}).1
        = .ok (listing.map fun row => decodeRow (readsNumber 1) integers.schema row.2)
      ∧ Listed (integers.withRow (readsNumber 1) (integers.content fun _ => none) [.int64 1])
          (.unbounded, .unbounded) listing := by
  obtain ⟨e₀, e, hholds, -, hfirst, hinsert⟩ := exists_insert_oneAndNull
  obtain ⟨done, rest, out, e₁, e', listing, hrun, hrows, hwritten, hends, -, hscan, hlisted⟩ :=
    insert_keeps_rows_before_error (readsNumber 1) .full crc32 crc32
      Filesystem.not_verifies_castagnoli_zeroed hholds
      emptyContext (oneColumnTable .int64) [[.int64 1], [.null]] (by decide)
  cases hends with
  | all => cases hinsert.symm.trans hrun
  | @refused row rest f _ hput =>
    match done, hrows with
    | [], hrows =>
      -- the first row is not the one that is refused
      cases hrows
      cases hwritten
      cases hfirst.symm.trans hput
    | [first], hrows =>
      cases hrows
      exact ⟨e₀, e₁, e', f, listing, hrun, hwritten, hput, hscan, hlisted⟩
    | _ :: _ :: _, hrows => simp at hrows

/-- `INSERT INTO t VALUES (1), (NULL)` returns an error at its second row, and the first row
    is in the table, which had no rows before. -/
theorem failed_insert_keeps_first_row : ∃ e₀ e : DiskEngine,
    bindInsert (readsNumber 1) noSerde (fun _ _ _ => .ok (oneColumnTable .int64)) insertOneAndNull
        = .ok (oneColumnTable .int64, [[.int64 1], [.null]])
      ∧ (TableReader.scan (readsNumber 1) .full castagnoli crc32 integers e₀ {}).1 = .ok []
      ∧ insert (engineStorage (readsNumber 1) .full crc32 castagnoli crc32) emptyContext
        (oneColumnTable .int64)
          (.values [[.int64 1], [.null]]) e₀ = (internalError "primary key cannot be null", e)
      ∧ (TableReader.scan (readsNumber 1) .full castagnoli crc32 integers e {}).1
        = .ok [.ok [.int64 1]] := by
  obtain ⟨e₀, e, hbefore, hafter, -, hrun⟩ := exists_insert_oneAndNull
  refine ⟨e₀, e, bindInsert_oneAndNull, ?_, hrun, ?_⟩
  · obtain ⟨rows, _, hscan, -, hlisted⟩ :=
      @TableReader.scan_eq _ _ _ _ _ (readsNumber 1) crc32 integers hbefore {}
      (Or.inl rfl)
    have hnone : rows = [] := List.eq_nil_iff_forall_not_mem.mpr fun row hrow =>
      nomatch ((hlisted.mem row.1 row.2).mp hrow).2
    rw [hscan, hnone]
    rfl
  · obtain ⟨rows, _, hscan, -, hlisted⟩ :=
      @TableReader.scan_eq _ _ _ _ _ (readsNumber 1) crc32 integers hafter {}
      (Or.inl rfl)
    rw [hscan, ← listed_integers.unique hlisted]
    rfl

end StrataDb.Sql
