import StrataDb.EngineInvariant
import StrataDb.TableScans

/-!
# The storage engine is a map from keys to byte strings

In every session that puts, deletes, flushes, reopening after a flush, views and scans lead to, a
lookup gives the last value put unless the key was deleted since, and a scan the present keys of
its range with these values. A lookup needs a frame that no view pins, and a scan needs two.
-/

namespace StrataDb.Store

open ByteCodec OrderedMap Runs
open Filesystem
open StorageEngine (TupleRef)
open Lsm (FastBloom LsmConfig Write smallPages exists_flushed)
open Crc (crc32)
open Lsm.FastBloom (full)

/-! ### Sessions -/

structure Session where
  engine : DiskEngine
  views : List (TupleRef HEAP_FRAMES) := []

def Session.handles (s : Session) : List (Handle HEAP_FRAMES) := s.views.map (·.handle)

inductive EngineEvent where
  | put (key value : Bytes)
  | delete (key : Bytes)
  | flush
  | reopen (config : LsmConfig) (capacity : Nat)
  | view (key : Bytes)
  | drop
  | scan (start stop : Bound Bytes)
  | cached

def EngineEvent.toWrite : EngineEvent → Option Write
  | .put key value => some (key, some value)
  | .delete key => some (key, none)
  | _ => none

def engineWrites (es : List EngineEvent) : List Write := es.filterMap EngineEvent.toWrite

theorem engineWrites_snoc (es : List EngineEvent) (ev : EngineEvent) :
    engineWrites (es ++ [ev]) = engineWrites es ++ ev.toWrite.toList := by
  cases ev <;> simp [engineWrites, EngineEvent.toWrite]

section System

variable (B : FastBloom) (crc32 : Bytes → UInt32) (crc : Crc32c) (hash : Bytes → UInt32)

inductive EngineStep : Session → EngineEvent → Session → Prop
  | put {e e' : DiskEngine} {key value : Bytes}
    (h : e.put crc32 crc hash key value = (.ok (), e')) :
      EngineStep ⟨e, []⟩ (.put key value) ⟨e', []⟩
  | delete {s : Session} {e' : DiskEngine} {key : Bytes}
    (h : s.engine.delete crc32 key = (.ok (), e')) :
      EngineStep s (.delete key) ⟨e', s.views⟩
  | flush {s : Session} {e' : DiskEngine} (h : s.engine.flush B crc32 crc hash = (.ok (), e')) :
      EngineStep s .flush ⟨e', s.views⟩
  | reopen {s : Session} {e₁ e' : DiskEngine} {config : LsmConfig} {capacity : Nat}
      (hflush : s.engine.flush B crc32 crc hash = (.ok (), e₁))
      (hopen : DiskEngine.open crc32 hash e₁.disk config (.withCapacity capacity) = .ok e') :
      EngineStep s (.reopen config capacity) ⟨e', []⟩
  | view {s : Session} {e' : DiskEngine} {key : Bytes} {r : Option (TupleRef HEAP_FRAMES)}
      (h : s.engine.view B crc hash key = (.ok r, e')) : EngineStep s (.view key)
      ⟨e', r.toList ++ s.views⟩
  | drop {e : DiskEngine} {r : TupleRef HEAP_FRAMES} {before after : List (TupleRef HEAP_FRAMES)} :
      EngineStep ⟨e, before ++ r :: after⟩ .drop ⟨e.drop r, before ++ after⟩
  | scan {s : Session} {e' : DiskEngine} {start stop : Bound Bytes}
      {out : List (Except StorageError (Bytes × Option Bytes))}
      (hrange : reversed start stop = false)
      (h : s.engine.scan B crc hash start stop = (.ok out, e')) : EngineStep s (.scan start stop)
      ⟨e', s.views⟩
  | cached {s : Session} {cache : Lsm.SstPageCache}
      (h : Lsm.CacheStep B s.engine.index.sstables s.engine.index.manifest.version.liveFiles
        s.engine.index.cache cache) :
      EngineStep s .cached ⟨{ s.engine with index := { s.engine.index with cache := cache } },
        s.views⟩

def EngineFits (s : Session) : EngineEvent → Prop
  | .put key _ => key.length + 27 < 2 ^ 32 ∧ s.engine.heap.cache.block.nextId + 1 < 2 ^ 64
  | .delete key => key.length + 17 < 2 ^ 32
  | .flush => Lsm.LsmFits B s.engine.index .flush
  | .reopen config _ => Lsm.LsmFits B s.engine.index .flush ∧ 0 < config.numLevels % 2 ^ 32
  | _ => True

def EngineFitStep (s : Session) (ev : EngineEvent) (s' : Session) : Prop :=
  EngineStep B crc32 crc hash s ev s' ∧ EngineFits B s ev

/-- **Reads of a map.** -/
structure Serves (ws : List Write) (s : Session) : Prop where
  get : ∀ key, Idle s.handles → ∃ r e', s.engine.view B crc hash key = (.ok r, e') ∧
    r.map e'.bytes = (VersionedMap.apply ws key).map some
  scan : ∀ start stop, reversed start stop = false → Roomy s.handles →
    ∃ (rows : List (Bytes × Bytes)) (e' : DiskEngine),
      s.engine.scan B crc hash start stop
        = (.ok (rows.map fun row => .ok (row.1, some row.2)), e') ∧
      rows.Pairwise (fun a b => a.1 < b.1) ∧
      ∀ key value, (key, value) ∈ rows ↔
        inBounds start stop key = true ∧ VersionedMap.apply ws key = some value

variable {B crc32 crc hash}

theorem Session.handles_read (s : Session) : ∀ k ∈ s.handles, k.write = false := by
  intro k hk
  obtain ⟨r, -, rfl⟩ := List.mem_map.mp hk
  rfl

theorem Sound.step {ws : List Write} {s s' : Session} {ev : EngineEvent}
    (hzero : ¬ Verifies crc Block.zeroed) (h : Sound B crc32 crc ws s.handles s.engine)
    (hstep : EngineFitStep B crc32 crc hash s ev s') :
    Sound B crc32 crc (ws ++ ev.toWrite.toList) s'.handles s'.engine := by
  obtain ⟨hstep, hfits⟩ := hstep
  have hsame {hs : List (Handle HEAP_FRAMES)} {e : DiskEngine} (h : Sound B crc32 crc ws hs e) :
      Sound B crc32 crc (ws ++ []) hs e := by rwa [List.append_nil]
  cases hstep with
  | put hput => exact h.put hzero hfits.1 hfits.2 hput
  | delete hdelete => exact h.delete hfits hdelete
  | flush hflush =>
    exact hsame (h.flush hfits hflush).1
  | reopen hflush hopen =>
    obtain ⟨h₁, hclean⟩ := h.flush hfits.1 hflush
    exact hsame (h₁.reopen s.handles_read hclean hfits.2 hopen)
  | @view _ _ key r hview =>
    obtain ⟨ils, lo, content, hinv⟩ := h
    obtain ⟨_, _, hrun, hindex, -, ⟨ref, rfl, h', -⟩ | ⟨⟨f, rfl⟩, -⟩⟩ :=
      hinv.view_cases hash s.handles_read key
    · obtain ⟨hr, rfl⟩ := Prod.mk.inj (hview.symm.trans hrun)
      obtain rfl := Except.ok.inj hr
      refine hsame ⟨ils, lo, content, ?_⟩
      rw [Session.handles, List.map_append]
      exact hinv.of_read hindex h'
    · cases (Prod.mk.inj (hview.symm.trans hrun)).1
  | @drop e r before after =>
    obtain ⟨ils, lo, content, hinv⟩ := h
    refine hsame ⟨ils, lo, content, hinv.of_read rfl (hinv.drop ?_)⟩
    simp only [Session.handles, List.map_append, List.map_cons]
    exact List.perm_middle
  | @scan _ _ start stop out hrange hscan =>
    obtain ⟨ils, lo, content, hinv⟩ := h
    obtain ⟨-, _, _, hrun, hindex, -, h', -⟩ := hinv.scan hash s.handles_read (Or.inl hrange)
    obtain ⟨-, rfl⟩ := Prod.mk.inj (hscan.symm.trans hrun)
    exact hsame ⟨ils, lo, content, hinv.of_read hindex h'⟩
  | cached hcache =>
    obtain ⟨ils, lo, content, hinv⟩ := h
    have hinv' := hinv.index.cached hcache
    exact hsame ⟨ils, lo, content, ⟨hinv'.toLayered, hinv.heap, hinv.indexed, hinv.ids⟩, hinv'⟩

theorem Sound.serves {ws : List Write} {s : Session} (h : Sound B crc32 crc ws s.handles s.engine) :
    Serves B crc hash ws s := by
  obtain ⟨ils, lo, content, hinv⟩ := h
  constructor
  · intro key hidle
    obtain ⟨_, e', hrun, -, -, ⟨r, rfl, -, hbytes⟩ | ⟨-, -, hfull⟩⟩ :=
      hinv.view_cases hash s.handles_read key
    · exact ⟨r, e', hrun, hbytes⟩
    · exact absurd hidle hfull
  · intro start stop hrange hroomy
    obtain ⟨rows, out, e', hrun, -, -, -, hsorted, hmem, hout⟩ :=
      hinv.scan hash s.handles_read (Or.inl hrange)
    rw [hout hroomy] at hrun
    exact ⟨rows, e', hrun, hsorted, hmem⟩

end System

/-! ### Every run -/

section Runs

variable {B : FastBloom} {crc : Crc32c} {hash : Bytes → UInt32}

theorem sound_of_run {B : FastBloom} {crc32 : Bytes → UInt32} (hzero : ¬ Verifies crc Block.zeroed)
    {config : LsmConfig} {capacity : Nat} {e₀ : DiskEngine} {es : List EngineEvent} {s : Session}
    (hlevels : 0 < config.numLevels % 2 ^ 32)
    (hopen : DiskEngine.open crc32 hash {} config (.withCapacity capacity) = .ok e₀)
    (hrun : Run (EngineFitStep B crc32 crc hash) ⟨e₀, []⟩ es s) :
    Sound B crc32 crc (engineWrites es) s.handles s.engine := by
  refine hrun.history (P := fun es s => Sound B crc32 crc (engineWrites es) s.handles s.engine)
    (sound_create hlevels hopen) fun es s ev s' h hstep => ?_
  rw [engineWrites_snoc]
  exact h.step hzero hstep

/-- **The engine refines a map.**  After every history of calls that return no error, lookups
    and scans are those of the map the history leads to. -/
theorem engine_refines_map {crc32 : Bytes → UInt32} {config : LsmConfig} {capacity : Nat}
    {e₀ : DiskEngine} {es : List EngineEvent} {s : Session}
    (hlevels : 0 < config.numLevels % 2 ^ 32)
    (hopen : DiskEngine.open crc32 hash {} config (.withCapacity capacity) = .ok e₀)
    (hrun : Run (EngineFitStep B crc32 castagnoli hash) ⟨e₀, []⟩ es s) :
    Serves B castagnoli hash (engineWrites es) s :=
  (sound_of_run not_verifies_castagnoli_zeroed hlevels hopen hrun).serves

end Runs

structure FirstPut (config : LsmConfig) (capacity : Nat) (e₀ e₁ : DiskEngine) : Prop where
  create : DiskEngine.open crc32 crc32 {} config (.withCapacity capacity) = .ok e₀
  put : e₀.put crc32 castagnoli crc32 [1] [2] = (.ok (), e₁)
  next : e₀.heap.cache.block.nextId = 1

def firstLoc : Bytes := [0, 0, 0, 0, 0, 0, 0, 1, 0, 0]

theorem encode_firstLoc : TupleLoc.encode ⟨1, 0⟩ = firstLoc := by decide

theorem exists_firstPut {config : LsmConfig} {capacity : Nat} {t₀ t₁ : Lsm}
    (hcreate : Lsm.withMemtable crc32 {} config (.withCapacity capacity) = .ok t₀)
    (hput : t₀.put crc32 [1] firstLoc = (.ok (), t₁)) :
    ∃ h₀ h₁, FirstPut config capacity ⟨t₀, h₀⟩ ⟨t₁, h₁⟩ := by
  obtain ⟨h₀, h₁, hheap, hinsert, hnext⟩ := @heap_first_insert HEAP_FRAMES castagnoli [2] crc32
    not_verifies_castagnoli_zeroed (by decide) (by decide)
  refine ⟨h₀, h₁, DiskEngine.open_eq_ok.mpr ⟨hcreate, hheap⟩, ?_, hnext⟩
  rw [← encode_firstLoc] at hput
  exact StorageEngine.put_of_insert (e := ⟨t₀, h₀⟩) hinsert hput

theorem FirstPut.flush_heap {config : LsmConfig} {capacity : Nat} {e₀ e₁ : DiskEngine}
    (h : FirstPut config capacity e₀ e₁) : ∃ h₂, e₁.heap.flush castagnoli crc32 = (.ok (), h₂) := by
  obtain ⟨-, hheap⟩ := DiskEngine.open_eq_ok.mp h.create
  obtain ⟨h₀, hopen, hready, -⟩ := heapReady_create castagnoli crc32 HEAP_FRAMES
  obtain rfl := Except.ok.inj (hheap.symm.trans hopen)
  obtain ⟨loc, h₁, hinsert, -, hready₁, -⟩ :=
    @HeapReady.insert HEAP_FRAMES castagnoli _ _ _ [2] crc32 hready
    (idle_nil (by decide)) nofun not_verifies_castagnoli_zeroed (by decide)
  have hput := h.put
  rw [StorageEngine.put, hinsert] at hput
  obtain ⟨-, rfl⟩ := Prod.mk.inj hput
  obtain ⟨h₂, hrun, -⟩ := hready₁.flush crc32
  exact ⟨h₂, hrun⟩

theorem tableFits_firstLoc : Lsm.TableFits full 0 smallPages.flushTable
    [Lsm.logEntry 0 ([1], some firstLoc)] where
  blocks := by decide +kernel
  shards := by decide +kernel
  root := by decide +kernel

theorem lsmFits_firstLoc {capacity : Nat} {t₀ t₁ t₂ : Lsm}
    (h : Lsm.Flushed full crc32 smallPages capacity [1] firstLoc t₀ t₁ t₂) :
    Lsm.LsmFits full t₁ .flush := by
  intro _
  obtain ⟨hentries, hid, hconfig⟩ := h.before
  rw [hentries, hid, hconfig]
  exact tableFits_firstLoc

theorem engine_refines_map_reopened : ∃ e₀ s,
    DiskEngine.open crc32 crc32 {} smallPages (.withCapacity 16) = .ok e₀ ∧
    Run (EngineFitStep full crc32 castagnoli crc32) ⟨e₀, []⟩
      [.put [1] [2], .reopen smallPages 16] s ∧
    Serves full castagnoli crc32 [([1], some [2])] s := by
  have hlevels : 0 < smallPages.numLevels % 2 ^ 32 := by decide
  obtain ⟨t₀, t₁, t₂, h⟩ := exists_flushed full crc32 smallPages 16 [1] firstLoc (by decide +kernel)
  obtain ⟨h₀, h₁, hfirst⟩ := exists_firstPut h.create h.put
  have hput : EngineFitStep full crc32 castagnoli crc32 ⟨⟨t₀, h₀⟩, []⟩ (.put [1] [2])
    ⟨⟨t₁, h₁⟩, []⟩ := by
    refine ⟨.put hfirst.put, by decide, ?_⟩
    rw [hfirst.next]
    decide
  have hfits := lsmFits_firstLoc h
  have hsound := sound_of_run not_verifies_castagnoli_zeroed hlevels hfirst.create (.snoc .nil hput)
  -- flush the heap and the index, then open what they left
  obtain ⟨h₂, hheap⟩ := hfirst.flush_heap
  have hflush : (⟨t₁, h₁⟩ : DiskEngine).flush full crc32 castagnoli crc32 = (.ok (), ⟨t₂, h₂⟩) := by
    rw [StorageEngine.flush, hheap]
    dsimp only
    rw [h.flush]
  obtain ⟨⟨_, _, _, hinv⟩, hclean⟩ := hsound.flush hfits hflush
  obtain ⟨t₃, hindex, -⟩ := hinv.index.reopen_ok smallPages
  obtain ⟨h₃, hheap₃, -⟩ :=
    hinv.heap.reopen crc32 (fun _ h => absurd h List.not_mem_nil) hclean hinv.ids HEAP_FRAMES
  have hcapacity : t₂.mem.inner.capacity = 16 := by rw [h.mem]; rfl
  have hindex' : Lsm.withMemtable crc32 t₂.disk smallPages (.withCapacity t₂.mem.inner.capacity)
    = .ok t₃ := hindex
  rw [hcapacity] at hindex'
  have hrun : Run (EngineFitStep full crc32 castagnoli crc32) ⟨⟨t₀, h₀⟩, []⟩
      [.put [1] [2], .reopen smallPages 16] ⟨⟨t₃, h₃⟩, []⟩ :=
    .snoc (.snoc .nil hput) ⟨.reopen hflush (DiskEngine.open_eq_ok.mpr ⟨hindex', hheap₃⟩), hfits,
      hlevels⟩
  exact ⟨_, _, hfirst.create, hrun, engine_refines_map hlevels hfirst.create hrun⟩

/-- Where the engine is not the map.  A scan from above a key to below the same key panics
    after one put.  And an engine without levels loses what it flushes. -/
theorem engine_limits :
    (∃ e₀ e₁, FirstPut .default Lsm.DEFAULT_CAPACITY e₀ e₁ ∧
      (e₁.scan full castagnoli crc32 (.excluded [1]) (.excluded [1])).1
        = .error (.panicked "range start is greater than range end in BTreeMap")) ∧
    (∃ e₀ e₁ e₂, FirstPut (.leveled 0) 16 e₀ e₁ ∧
      e₁.flush full crc32 castagnoli crc32 = (.ok (), e₂) ∧
      (e₂.view full castagnoli crc32 [1]).1 = .ok none) := by
  constructor
  · obtain ⟨t₀, t₁, _, h⟩ :=
      exists_flushed full crc32 .default Lsm.DEFAULT_CAPACITY [1] firstLoc (by decide +kernel)
    obtain ⟨h₀, h₁, hfirst⟩ := exists_firstPut h.create h.put
    refine ⟨_, _, hfirst, ?_⟩
    rcases (⟨t₁, h₁⟩ : DiskEngine).scan_cases (.excluded [1]) (.excluded [1]) with
      ⟨-, -, hscan⟩ | ⟨hfine, -⟩
    · exact hscan
    · have hreversed : reversed (.excluded [1]) (.excluded [1] : Bound Bytes) = true := by decide
      simp [h.before.1, hreversed] at hfine
  · obtain ⟨t₀, t₁, t₂, h⟩ :=
      exists_flushed full crc32 (.leveled 0) 16 [1] firstLoc (by decide +kernel)
    obtain ⟨h₀, h₁, hfirst⟩ := exists_firstPut h.create h.put
    obtain ⟨h₂, hheap⟩ := hfirst.flush_heap
    refine ⟨_, _, ⟨t₂, h₂⟩, hfirst, ?_, ?_⟩
    · rw [StorageEngine.flush, hheap]
      dsimp only
      rw [h.flush]
    · rw [StorageEngine.view, h.get_none rfl [1]]

end StrataDb.Store
