import StrataDb.EngineInvariant

/-!
# What the layers above see of the engine

`Holds m pages e`: the engine `e` holds the map `m`, and has issued page ids up to `pages`. Reads
give what the map has; a write changes it at its key, or leaves it alone and returns an error.
-/

namespace StrataDb.Store

open ByteCodec OrderedMap
open Filesystem
open Lsm (FastBloom LsmConfig Write)

structure Holds (B : FastBloom) (crc : Crc32c) (m : Bytes → Option Bytes) (pages : Nat)
    (e : DiskEngine) :
    Prop where
  issued : e.heap.cache.block.nextId ≤ pages
  history : ∃ ws ils lo content, Holding B crc ws ils lo content [] e ∧ VersionedMap.apply ws = m

section Calls

variable {B : FastBloom} {crc32 : Bytes → UInt32} {crc : Crc32c} {hash : Bytes → UInt32}
  {m : Bytes → Option Bytes}
  {pages : Nat} {e : DiskEngine}

theorem holds_create (B : FastBloom) (crc : Crc32c) {config : LsmConfig} {capacity : Nat}
    (hopen : DiskEngine.open crc32 hash {} config (.withCapacity capacity) = .ok e) :
    Holds B crc (fun _ => none) 1 e := by
  obtain ⟨content, h, hnext⟩ := holding_create B crc hopen
  exact ⟨hnext.le, [], [], 0, content, h, rfl⟩

theorem Holds.mono (h : Holds B crc m pages e) {pages' : Nat} (hle : pages ≤ pages') :
    Holds B crc m pages' e :=
  ⟨h.issued.trans hle, h.history⟩

theorem Holds.put_cases (crc32 hash : Bytes → UInt32) (h : Holds B crc m pages e)
    (hzero : ¬ Verifies crc Block.zeroed) (hpages : pages + 1 < 2 ^ 64) (key value : Bytes) :
    ∃ r e', e.put crc32 crc hash key value = (r, e')
      ∧ ((r = .ok () ∧ Holds B crc (Function.update m key (some value)) (pages + 1) e')
        ∨ (∃ f, r = .error f) ∧ Holds B crc m (pages + 1) e') := by
  obtain ⟨hissued, ws, ils, lo, content, h, rfl⟩ := h
  obtain ⟨r, e', content', hrun, hnext, hcases⟩ := h.put_cases crc32 hash hzero (by omega) key value
  have hissued' : e'.heap.cache.block.nextId ≤ pages + 1 := by omega
  refine ⟨r, e', hrun, ?_⟩
  rcases hcases with ⟨hr, loc, -, -, h'⟩ | ⟨hr, h', -⟩
  · exact Or.inl ⟨hr, hissued', _, _, lo, content', h', VersionedMap.apply_snoc ws _⟩
  · exact Or.inr ⟨hr, hissued', ws, ils, lo, content', h', rfl⟩

theorem Holds.delete_cases (crc32 : Bytes → UInt32) (h : Holds B crc m pages e) (key : Bytes) :
    ∃ r e', e.delete crc32 key = (r, e')
      ∧ ((r = .ok () ∧ Holds B crc (Function.update m key none) pages e')
        ∨ (∃ f, r = .error f) ∧ Holds B crc m pages e') := by
  obtain ⟨hissued, ws, ils, lo, content, h, rfl⟩ := h
  obtain ⟨r, e', hrun, hheap, hcases⟩ := h.delete_cases crc32 key
  have hissued' : e'.heap.cache.block.nextId ≤ pages := by rwa [hheap]
  refine ⟨r, e', hrun, ?_⟩
  rcases hcases with ⟨hr, -, h'⟩ | ⟨hr, h', -⟩
  · exact Or.inl ⟨hr, hissued', _, _, lo, content, h', VersionedMap.apply_snoc ws _⟩
  · exact Or.inr ⟨hr, hissued', ws, ils, lo, content, h', rfl⟩

theorem StorageEngine.get_eq (B : FastBloom) (crc : Crc32c) (hash : Bytes → UInt32) (e : DiskEngine)
    (key : Bytes) :
    e.get B crc hash key =
      match e.view B crc hash key with
      | (.error f, e') => (.error f, e')
      | (.ok none, e') => (.ok none, e')
      | (.ok (some r), e') => (.ok (some (e'.bytes r)), e'.drop r) := by
  rw [StorageEngine.get, StorageEngine.view]
  rcases e.index.get B key with err | _ | locBytes
  · rfl
  · rfl
  · dsimp only
    rcases decodeLoc locBytes with err | loc
    · rfl
    · simp only [Heap.get, Inner.withRead]
      rcases e.heap.cache.acquireRead crc hash loc.pageId with ⟨_ | f, c⟩ <;> rfl

theorem Holds.get (hash : Bytes → UInt32) (h : Holds B crc m pages e) (key : Bytes) :
    ∃ e', e.get B crc hash key = (.ok ((m key).map some), e') ∧ Holds B crc m pages e' := by
  obtain ⟨hissued, ws, ils, lo, content, h, rfl⟩ := h
  have hidle : Idle ([] : List (Handle HEAP_FRAMES)) := idle_nil (by decide)
  rw [StorageEngine.get_eq]
  obtain ⟨r, e', hrun, -, hnext, ⟨ref, rfl, h', hbytes⟩ | ⟨-, -, hfull⟩⟩ :=
    h.view_cases hash nofun key
  · rw [hrun, ← hbytes]
    rw [← hnext] at hissued
    cases ref with
    | none => exact ⟨e', rfl, hissued, ws, ils, lo, content, h', rfl⟩
    | some r =>
      exact ⟨e'.drop r, rfl, hissued, ws, ils, lo, content, h'.drop (List.Perm.refl _), rfl⟩
  · exact absurd hidle hfull

theorem roomy_nil : Roomy ([] : List (Handle HEAP_FRAMES)) :=
  ⟨⟨0, by decide⟩, ⟨1, by decide⟩, by decide, fun _ h => absurd h List.not_mem_nil⟩

/-- **A scan** gives the keys of its range with what the map has for them, ascending. -/
theorem Holds.scan (hash : Bytes → UInt32) (h : Holds B crc m pages e) {start stop : Bound Bytes}
    (hrange : reversed start stop = false ∨ e.index.mem.inner.entries = []) :
    ∃ (rows : List (Bytes × Bytes)) (e' : DiskEngine),
      e.scan B crc hash start stop = (.ok (rows.map fun row => .ok (row.1, some row.2)), e')
      ∧ Holds B crc m pages e' ∧ rows.Pairwise (fun a b => a.1 < b.1)
      ∧ ∀ key value, (key, value) ∈ rows ↔ inBounds start stop key = true ∧ m key = some value := by
  obtain ⟨hissued, ws, ils, lo, content, h, rfl⟩ := h
  obtain ⟨rows, out, e', hrun, -, hnext, h', hsorted, hmem, hout⟩ :=
    h.scan hash (fun _ hk => absurd hk List.not_mem_nil) hrange
  rw [hout roomy_nil] at hrun
  exact ⟨rows, e', hrun, ⟨hnext.le.trans hissued, ws, ils, lo, content, h', rfl⟩, hsorted, hmem⟩

end Calls

end StrataDb.Store
