import StrataDb.BindInsert
import StrataDb.MergeJoin

/-!
# A sort takes rows that fit a page

Rows of a table fit a page, because they were stored on one; rows of a join need not. So a plan
that gives its rows fails once it is sorted exactly when one of them is longer than a page takes.
-/

namespace StrataDb.Sql

open ByteCodec EquiJoin
open Filesystem (PAGE_SIZE maxTuple packPages)
open Runs (bind_eq_ok)
open RowStream (collect_ofRows mem_ofRows ofRows ofRows_inj)

section Width

variable {ctx : QueryContext} {node : PlanNode} {keys : List SortKey} {schema : Schema}
  {rows : List Tuple}

theorem build_of_drain (h : drain ctx node = .ok rows) : build ctx node = .ok (.ofRows rows) := by
  obtain ⟨stream, hbuild, hcollect⟩ := bind_eq_ok.mp h
  rw [hbuild, RowStream.collect_eq_ok.mp hcollect]

theorem build_sort (h : drain ctx node = .ok rows) :
    build ctx (.sort node keys schema) = sort ctx keys schema (.ofRows rows) := by
  rw [build, build_of_drain h]
  rfl

/-- **A plan that gives rows of its schema can be sorted** by keys that evaluate on them,
    provided each of the rows fits a page. -/
theorem sort_of_narrow_rows (ctx : QueryContext) (hscratch : Scratch ctx) (node : PlanNode)
    (keys : List SortKey) (schema : Schema) (rows : List Tuple) (h : drain ctx node = .ok rows)
    (htyped : ∀ t ∈ rows, Typed ctx.runtime schema.fields t)
    (hkeys : ∀ t ∈ rows, ∃ key, sortKeyBytes ctx.runtime t keys = .ok key) :
    (∃ sorted, drain ctx (.sort node keys schema) = .ok sorted)
      ↔ ∀ t ∈ rows, schema.encodedSize t ≤ maxTuple := by
  have hinput : ∀ t, .ok t ∈ ofRows rows → Typed ctx.runtime schema.fields t :=
    fun t ht => htyped t (mem_ofRows.mp ht)
  constructor
  · rintro ⟨sorted, hsorted⟩ t ht
    obtain ⟨stream, hbuild, -⟩ := bind_eq_ok.mp hsorted
    rw [build_sort h] at hbuild
    exact encodedSize_le_of_sort hscratch hinput hbuild (mem_ofRows.mpr ht)
  · intro hwidth
    rcases @sort_cases ctx keys schema (.ofRows rows) hscratch hinput with ⟨keyed, -, hsort⟩ | ⟨f,
      hsort, -⟩
    · refine ⟨_, bind_eq_ok.mpr ⟨_, (build_sort h).trans hsort, collect_ofRows _⟩⟩
    · obtain ⟨output, hok⟩ := sort_ok hscratch htyped hkeys hwidth
      cases hsort.symm.trans hok

end Width

/-- The rows `2` and `1` in order. -/
theorem sort_of_narrow_rows_two :
    ∃ sorted,
      drain emptyContext (.sort (.values [[.int32 2], [.int32 1]]) [joinSortKey 0]
      (keySchema .int32))
      = .ok sorted := by
  refine (sort_of_narrow_rows emptyContext scratch_emptyContext (.values [[.int32 2], [.int32 1]])
    [joinSortKey 0] (keySchema .int32) [[.int32 2], [.int32 1]] rfl ?_ ?_).mpr (by decide)
  · intro t ht
    fin_cases ht <;> exact .cons ⟨rfl, trivial⟩ .nil
  · intro t ht
    fin_cases ht <;> exact ⟨_, rfl⟩

/-! ### A join of rows that fit -/

def bytesRow (length : Nat) : Tuple := [.bytes (List.replicate length 0)]

def wideTable : Table := { oneColumnTable .bytes with schema := keySchema .bytes }

def wideContext : QueryContext := { emptyContext with scan := fun _ => .ofRows [bytesRow 5000] }

def widePlan : PlanNode :=
  lowerJoin (.seqScan wideTable) (.seqScan wideTable) none .inner wideTable.schema wideTable.schema

def wideSchema : Schema := ⟨wideTable.schema.fields ++ wideTable.schema.fields⟩

theorem scratch_wideContext : Scratch wideContext :=
  ⟨scratch_emptyContext.codec, scratch_emptyContext.zeroed⟩

theorem typed_bytesRow (rt : Runtime) (length : Nat) :
    Typed rt (keySchema .bytes).fields (bytesRow length) :=
  .cons ⟨rfl, trivial⟩ .nil

theorem encodedSize_bytesRow (length : Nat) :
    (keySchema .bytes).encodedSize (bytesRow length) = length + 5 := by
  simp only [Schema.encodedSize, keySchema, bytesRow, encodedSizes, Value.encodedSize, bitmapBytes,
    List.length_replicate, List.length_singleton]
  omega

theorem drain_widePlan : drain wideContext widePlan = .ok [bytesRow 5000 ++ bytesRow 5000] := by
  have hright : ∀ {stream : RowStream} {t : Tuple}, Except.ok (ofRows [bytesRow 5000])
      = (.ok stream : Outcome RowStream) → .ok t ∈ stream → t = bytesRow 5000 := by
    intro stream t hstream ht
    cases hstream
    exact List.mem_singleton.mp (mem_ofRows.mp ht)
  have hroom : FitsInner default (keySchema .bytes) (.ok (.ofRows [bytesRow 5000])) := by
    intro R bss hR hbss
    obtain rfl := ofRows_inj (Except.ok.inj hR)
    obtain ⟨bytes, rest, -, hrest, rfl⟩ := List.forall₂_cons_left_iff.mp hbss
    obtain rfl := List.forall₂_nil_left_iff.mp hrest
    have hpages : (packPages [bytes]).length = 1 := rfl
    rw [hpages]
    decide
  rcases blockNestedLoopJoin_cases codecLaws_default none .inner 1 1 (.ok (.ofRows [bytesRow 5000]))
      (fun stream t hstream ht => hright hstream ht ▸ typed_bytesRow _ 5000)
      (fun stream t hstream ht => by rw [hright hstream ht, encodedSize_bytesRow]; decide)
        hroom with
    ⟨L, R, hjoin, rows, hrun, hperm⟩ | ⟨f, -, hfault⟩
  · obtain rfl := ofRows_inj (Except.ok.inj hjoin.left)
    obtain rfl := ofRows_inj (Except.ok.inj hjoin.right)
    obtain rfl : rows = [bytesRow 5000 ++ bytesRow 5000] := List.perm_singleton.mp hperm
    exact bind_eq_ok.mpr ⟨_, hrun, collect_ofRows _⟩
  · have hjoin : Joinable default none (.ok (.ofRows [bytesRow 5000]))
      (.ok (.ofRows [bytesRow 5000])) _ _ :=
      ⟨rfl, rfl, fun _ _ _ _ => rfl⟩
    exact absurd hfault hjoin.no_fault

theorem typed_wideRow :
    Typed wideContext.runtime wideSchema.fields (bytesRow 5000 ++ bytesRow 5000) :=
  List.rel_append (typed_bytesRow _ 5000) (typed_bytesRow _ 5000)

theorem sortKeyBytes_wideRow :
    ∃ key, sortKeyBytes wideContext.runtime (bytesRow 5000 ++ bytesRow 5000) [joinSortKey 0]
      = .ok key :=
  have hkey : (rowKey 0 (bytesRow 5000 ++ bytesRow 5000)).encodeKey = .ok (List.replicate 5000 0) :=
    rfl
  ⟨_, sortKeyBytes_column (Nat.succ_pos _) (part_of_encodeKey hkey)⟩

theorem encodedSize_wideRow : wideSchema.encodedSize (bytesRow 5000 ++ bytesRow 5000) = 10009 := by
  simp only [Schema.encodedSize, wideSchema, wideTable, keySchema, bytesRow, List.cons_append,
    List.nil_append, encodedSizes, Value.encodedSize, bitmapBytes, List.length_replicate,
    List.length_cons, List.length_nil]

theorem sort_wideRow :
    sort wideContext [joinSortKey 0] wideSchema (.ofRows [bytesRow 5000 ++ bytesRow 5000])
    = .error (spillError "sort run" (.tupleTooLarge 10009 maxTuple)) := by
  have hrow : ∀ {t : Tuple}, .ok t ∈ ofRows [bytesRow 5000 ++ bytesRow 5000] →
      t = bytesRow 5000 ++ bytesRow 5000 := fun ht => List.mem_singleton.mp (mem_ofRows.mp ht)
  have htyped : ∀ t, .ok t ∈ ofRows [bytesRow 5000 ++ bytesRow 5000] →
      Typed wideContext.runtime wideSchema.fields t :=
    fun t ht => hrow ht ▸ typed_wideRow
  rcases @sort_cases wideContext [joinSortKey 0] wideSchema _ scratch_wideContext htyped with
    ⟨keyed, -, hsort⟩ | ⟨f, hsort, hfault⟩
  · have hwidth := encodedSize_le_of_sort scratch_wideContext htyped hsort
      (mem_ofRows.mpr List.mem_cons_self)
    rw [encodedSize_wideRow] at hwidth
    exact absurd hwidth (by decide)
  · rw [hsort]
    cases hfault with
    | input mem => exact absurd mem RowStream.error_notMem_ofRows
    | @key t mem fails =>
      obtain ⟨key, hkey⟩ := sortKeyBytes_wideRow
      rw [hrow mem, hkey] at fails
      cases fails
    | @width t mem wide =>
      obtain ⟨bytes, henc, -, rfl⟩ := wide
      obtain ⟨bytes', henc', hsize⟩ :=
        Schema.encode_ok scratch_wideContext.codec (htyped t mem).fitting
      cases henc.symm.trans henc'
      rw [hsize, hrow mem, encodedSize_wideRow]

/-- **`ORDER BY` on a join of two rows that fit.**  Each row takes 5005 bytes of a page's 8157;
    the plan without the sort gives the joined row, with the sort it fails, and so does the
    next join, whose left input is sorted. -/
theorem order_by_of_join_too_wide :
    (Conforms wideTable.schema (bytesRow 5000) ∧ wideTable.schema.encodedSize (bytesRow 5000)
      ≤ maxTuple)
      ∧ drain wideContext widePlan = .ok [bytesRow 5000 ++ bytesRow 5000]
      ∧ drain wideContext (.sort widePlan [joinSortKey 0] wideSchema)
        = .error (spillError "sort run" (.tupleTooLarge 10009 maxTuple))
      ∧ drain wideContext
        (lowerJoin widePlan (.seqScan wideTable) (some (.binary .eq (.column 0) (.column 2)))
          .inner wideSchema wideTable.schema)
        = .error (spillError "sort run" (.tupleTooLarge 10009 maxTuple)) := by
  have hsort : build wideContext (.sort widePlan [joinSortKey 0] wideSchema)
      = .error (spillError "sort run" (.tupleTooLarge 10009 maxTuple)) :=
    (build_sort drain_widePlan).trans sort_wideRow
  refine ⟨⟨.cons (.inr rfl) .nil, ?_⟩, drain_widePlan, ?_, ?_⟩
  · rw [show wideTable.schema = keySchema .bytes from rfl, encodedSize_bytesRow]
    decide
  · rw [drain, hsort]
    rfl
  · have hlower :
        lowerJoin widePlan (.seqScan wideTable) (some (.binary .eq (.column 0) (.column 2))) .inner
        wideSchema wideTable.schema = .join (.sort widePlan [joinSortKey 0] wideSchema)
          (.sort (.seqScan wideTable) [joinSortKey 0] wideTable.schema)
          (some (.binary .eq (.column 0) (.column 2))) .inner wideSchema wideTable.schema
            .sortMerge := rfl
    rw [hlower, drain, build, hsort]
    rfl

end StrataDb.Sql
