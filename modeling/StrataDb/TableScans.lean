import StrataDb.TableApi

/-!
# Which range scans return (`crates/lsm/src/lib.rs`, `memstore/btree.rs`, `storage/table_api.rs`)

A non-empty `BTreeMap` panics when it is asked for a range that starts above its end, or at its
end with both ends left out, and nothing above it looks at the bounds. So a scan returns if and
only if its range is the right way around or the memtable is empty.
-/

namespace StrataDb.Store

open ByteCodec OrderedMap
open Filesystem (BlockStore EvictionPolicy Crc32c Inner)
open Lsm (FastBloom LsmError)

variable {V P : Type} {n : Nat} [BlockStore V] [EvictionPolicy P (Fin n)]
variable {B : FastBloom} {crc : Crc32c} {hash : Bytes → UInt32}

theorem Scan.mem_rows {items : List (Except LsmError (Bytes × Bytes))}
    {current : Option (Nat × Fin n)} {c : Inner V P n} {key : Bytes} {bytes : Option Bytes}
    (h : .ok (key, bytes) ∈ (rows crc hash items current c).1) : ∃ loc, .ok (key, loc) ∈ items := by
  induction items generalizing current c with
  | nil =>
    cases current with
    | none => cases h
    | some held => cases h
  | cons item items ih =>
    have hrest {current : Option (Nat × Fin n)} {c : Inner V P n}
        (h : .ok (key, bytes) ∈ (rows crc hash items current c).1) : ∃ loc, .ok (key, loc) ∈ item
          :: items :=
      (ih h).imp fun _ => List.mem_cons_of_mem _
    have hskip {e : StorageError} {current : Option (Nat × Fin n)} {c : Inner V P n}
        (h : .ok (key, bytes) ∈ .error e :: (rows crc hash items current c).1) :
        ∃ loc, .ok (key, loc) ∈ item :: items := by
      rcases List.mem_cons.mp h with heq | h
      · cases heq
      · exact hrest h
    cases item with
    | error e =>
      rw [rows] at h
      exact hskip h
    | ok p =>
      obtain ⟨key', locBytes⟩ := p
      rw [rows] at h
      split at h
      · exact hskip h
      · split at h
        · exact hskip h
        · rcases List.mem_cons.mp h with heq | h
          · cases heq
            exact ⟨locBytes, List.mem_cons_self⟩
          · exact hrest h

/-- A scan of the engine panics on a range the wrong way around over a non-empty memtable,
    and otherwise returns rows of the range. -/
theorem StorageEngine.scan_cases (e : StorageEngine V P n) (start stop : Bound Bytes) :
    (reversed start stop = true ∧ e.index.mem.inner.entries ≠ [] ∧ (e.scan B crc hash start stop).1
        = .error (.panicked "range start is greater than range end in BTreeMap")) ∨
      ((reversed start stop = false ∨ e.index.mem.inner.entries = []) ∧
        ∃ items, (e.scan B crc hash start stop).1 = .ok items ∧
          ∀ p, .ok p ∈ items → inBounds start stop p.1 = true) := by
  rcases e.index.scanAt_cases start stop e.index.seq with ⟨hrev, hne, hscan⟩ | ⟨hfine, items,
    hscan, hin⟩
  · refine Or.inl ⟨hrev, hne, ?_⟩
    rw [scan, scanAt, hscan]
    rfl
  · refine Or.inr ⟨hfine, (Scan.rows crc hash items none e.heap.cache).1, ?_, ?_⟩
    · rw [scan, scanAt, hscan]
    · rintro ⟨key, bytes⟩ hp
      obtain ⟨loc, hloc⟩ := Scan.mem_rows hp
      exact hin _ hloc

end StrataDb.Store

namespace StrataDb.Sql

open ByteCodec OrderedMap Runs
open Filesystem (BlockStore EvictionPolicy Crc32c Heap)
open Store (StorageEngine)
open Lsm (FastBloom)
open Crc (crc32)

variable {V P : Type} {n : Nat} [BlockStore V] [EvictionPolicy P (Fin n)]
variable {rt : Runtime} {B : FastBloom} {crc : Crc32c} {hash : Bytes → UInt32}

/-- A scan of a table panics on a range the wrong way around over a non-empty memtable, and
    otherwise returns, with rows only if some key is in the range. -/
theorem TableReader.scan_cases (h : TableReader) (engine : StorageEngine V P n)
    (options : ScanOptions) :
    (reversed options.range.1 options.range.2 = true ∧ engine.index.mem.inner.entries ≠ [] ∧
        (h.scan rt B crc hash engine options).1
          = .error (.panicked "range start is greater than range end in BTreeMap")) ∨
      ((reversed options.range.1 options.range.2 = false ∨ engine.index.mem.inner.entries = []) ∧
        ∃ rows, (h.scan rt B crc hash engine options).1 = .ok rows ∧
          ∀ row, .ok row ∈ rows → ∃ userKey, inBounds options.range.1 options.range.2 userKey
            = true) := by
  have hcases :=
    @StorageEngine.scan_cases V P n _ _ B crc hash engine (tableRange h.tablePrefix options.range).1
    (tableRange h.tablePrefix options.range).2
  rw [reversed_tableRange] at hcases
  rcases hcases with ⟨hrev, hne, hscan⟩ | ⟨hfine, items, hscan, hin⟩
  · refine Or.inl ⟨hrev, hne, ?_⟩
    rw [scan_fst, hscan]
    rfl
  · refine Or.inr ⟨hfine, items.map (scanned rt h.schema), ?_, ?_⟩
    · rw [scan_fst, hscan]
      rfl
    · intro row hrow
      obtain ⟨item, hitem, hscanned⟩ := List.mem_map.mp hrow
      cases item with
      | error e => cases hscanned
      | ok p =>
        obtain ⟨k, -, hk⟩ := inBounds_tableRange.mp (hin p hitem)
        exact ⟨k, hk⟩

/-- **Which range scans return**: those of the tree, and those of a table over it, whose
    range is the right way around or whose memtable is empty.  What they give is within the
    range. -/
theorem range_scans_return (t : Lsm) (heap : Heap V P n) (h : TableReader)
    (start stop : Bound Bytes) (maxSeq : UInt64) :
    ((∃ items, t.scanAt B start stop maxSeq = .ok items ∧ ∀ p, .ok p ∈ items → inBounds start stop
      p.1 = true) ↔
      reversed start stop = false ∨ t.mem.inner.entries = []) ∧
    ((∃ rows, (h.scan rt B crc hash ⟨t, heap⟩ { range := (start, stop) }).1 = .ok rows ∧
        ∀ row, .ok row ∈ rows → ∃ userKey, inBounds start stop userKey = true) ↔
      reversed start stop = false ∨ t.mem.inner.entries = []) := by
  constructor
  · rcases t.scanAt_cases start stop maxSeq with ⟨hrev, hne, hscan⟩ | ⟨hfine, hscan⟩
    · refine iff_of_false ?_ (by simp [hrev, hne])
      rintro ⟨items, hok, -⟩
      cases hscan.symm.trans hok
    · exact iff_of_true hscan hfine
  · rcases h.scan_cases ⟨t, heap⟩ { range := (start, stop) } with
      ⟨hrev, hne, hscan⟩ | ⟨hfine, hscan⟩
    · refine iff_of_false ?_ (by simpa [hrev] using hne)
      rintro ⟨rows, hok, -⟩
      cases hscan.symm.trans hok
    · exact iff_of_true hscan hfine

/-- After one write, the scans from above a key to below the same key panic, and so do those
    from a key to a smaller one. -/
theorem range_scan_panics :
    ∃ t₀ t, Lsm.withMemtable crc32 {} Lsm.smallPages (.withCapacity 16) = .ok t₀ ∧
    Run (Lsm.AttemptStep FastBloom.full crc32) t₀ [.call (.put [1] [2])] t ∧
    ∀ range ∈ ([(.excluded [1], .excluded [1]), (.included [2], .included [1])] : List
      (Bound Bytes × Bound Bytes)),
      (∀ maxSeq, t.scanAt FastBloom.full range.1 range.2 maxSeq
        = .error (.panicked "range start is greater than range end in BTreeMap")) ∧
      ∀ {V P : Type} {n : Nat} [BlockStore V] [EvictionPolicy P (Fin n)] (heap : Heap V P n)
        (rt : Runtime)
        (crc : Crc32c) (hash : Bytes → UInt32) (h : TableReader),
        (h.scan rt FastBloom.full crc hash ⟨t, heap⟩ { range }).1
          = .error (.panicked "range start is greater than range end in BTreeMap") := by
  obtain ⟨t₀, t, hw⟩ := Lsm.exists_written
  refine ⟨t₀, t, hw.create, hw.run, fun range hrange => ?_⟩
  have hrev : reversed range.1 range.2 = true := by
    fin_cases hrange <;> decide
  have hne : t.mem.inner.entries ≠ [] := by simp [hw.entries]
  constructor
  · intro maxSeq
    rcases t.scanAt_cases range.1 range.2 maxSeq with ⟨-, -, hscan⟩ | ⟨hfine, -⟩
    · exact hscan
    · simp [hrev, hne] at hfine
  · intro V P n _ _ heap rt crc hash h
    rcases h.scan_cases ⟨t, heap⟩ { range } with ⟨-, -, hscan⟩ | ⟨hfine, -⟩
    · exact hscan
    · simp [hrev, hne] at hfine

end StrataDb.Sql
