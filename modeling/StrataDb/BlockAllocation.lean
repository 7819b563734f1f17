import StrataDb.IdPool
import StrataDb.PageCacheDisk

/-!
# Which ids a block store hands out (`crates/filesystem/src/block`)

Over whole runs: no id in use is handed out, also after reopening, and a block that was written is
read (`TrackedStore`); and a page whose write a journal redid after a crash is not handed out,
unless it was on the free list of the last sync (`Recovered`).
-/

namespace StrataDb.Filesystem

open ByteCodec BlockStore
open Runs (Run)

/-! ### The pool of a store -/

class PooledBlockStore (V : Type) [BlockStore V] where
  pool : V → IdPool
  allocate_spec : ∀ v : V, ∃ v', allocate v = .ok ((pool v).allocate.1, v')
    ∧ pool v' = (pool v).allocate.2
  pool_free : ∀ (v : V) id, pool (free v id) = (pool v).release id
  pool_ensureAllocated : ∀ {v v' : V} {id}, ensureAllocated v id = .ok v' →
    pool v' = (pool v).reserve id
  pool_write : ∀ {v v' : V} {id b}, write v id b = .ok v' → pool v' = pool v
  pool_sync : ∀ {v v' : V}, sync v = .ok v' → pool v' = pool v

open PooledBlockStore

theorem length_le_writeAllAt (file : List Block) (id : Nat) (b : Block) :
    file.length ≤ (writeAllAt file id b).length := by
  rw [writeAllAt, List.length_set, List.length_append]
  exact Nat.le_add_right ..

instance : PooledBlockStore MemBlockStore where
  pool s := ⟨s.nextId, s.freeList⟩
  allocate_spec s := by
    rcases List.eq_nil_or_concat' s.freeList with hfree | ⟨front, id, hfree⟩
    · exact ⟨_, by simp [allocate, IdPool.allocate, hfree]; rfl, by simp [IdPool.allocate, hfree]⟩
    · exact ⟨_, by simp [allocate, IdPool.allocate, hfree]; rfl, by simp [IdPool.allocate, hfree]⟩
  pool_free _ _ := rfl
  pool_ensureAllocated h := by
    obtain rfl := Except.ok.inj h
    rfl
  pool_write h := by
    simp only [write] at h
    split_ifs at h
    obtain rfl := Except.ok.inj h
    rfl
  pool_sync h := by
    obtain rfl := Except.ok.inj h
    rfl

namespace DiskBlockStore

theorem ensureCapacity_spec {s : DiskBlockStore} (hcapacity : s.capacityBlocks ≤ s.file.length)
    (blocks : Nat) :
    ∃ file cap, s.ensureCapacity blocks = ⟨file, s.nextId, cap, s.freeList⟩ ∧ cap ≤ file.length ∧
      blocks ≤ file.length ∧ ∀ id, id < blocks → id < s.file.length → file[id]? = s.file[id]? := by
  rw [ensureCapacity]
  split_ifs with hgrow
  · have hle := le_nextMultipleOf blocks (m := GROWTH_CHUNK_BLOCKS) (by decide)
    have hlength : (setLen s.file (nextMultipleOf blocks GROWTH_CHUNK_BLOCKS)).length
        = nextMultipleOf blocks GROWTH_CHUNK_BLOCKS := by
      rw [setLen, List.length_append, List.length_take, List.length_replicate]
      omega
    refine ⟨_, _, rfl, hlength.ge, hlength.ge.trans' hle, fun id hid hlt => ?_⟩
    rw [setLen, List.getElem?_append_left (by rw [List.length_take]; omega),
      List.getElem?_take_of_lt (by omega)]
  · exact ⟨_, _, rfl, hcapacity, by omega, fun _ _ _ => rfl⟩

theorem sync_eq_ok {s s' : DiskBlockStore} : sync s = .ok s' ↔
    s.freeList.length ≤ MAX_FREE
      ∧ s' = { s with file := writeAllAt s.file 0 (superblock s.nextId s.freeList) } := by
  change s.writeSuperblock = .ok s' ↔ _
  rw [writeSuperblock]
  split_ifs with hfull
  · exact ⟨fun h => (by cases h), fun h => absurd h.1 (by omega)⟩
  · exact ⟨fun h => ⟨by omega, (Except.ok.inj h).symm⟩, fun h => by rw [h.2]⟩

@[simp] theorem nextId_ensureCapacity (s : DiskBlockStore) (blocks : Nat) :
    (s.ensureCapacity blocks).nextId = s.nextId := by
  rw [ensureCapacity]
  split_ifs <;> rfl

@[simp] theorem freeList_ensureCapacity (s : DiskBlockStore) (blocks : Nat) :
    (s.ensureCapacity blocks).freeList = s.freeList := by
  rw [ensureCapacity]
  split_ifs <;> rfl

instance : PooledBlockStore DiskBlockStore where
  pool s := ⟨s.nextId, s.freeList⟩
  allocate_spec s := by
    rcases List.eq_nil_or_concat' s.freeList with hfree | ⟨front, id, hfree⟩
    · exact ⟨_, by simp [allocate, IdPool.allocate, hfree]; rfl, by simp [IdPool.allocate, hfree]⟩
    · exact ⟨_, by simp [allocate, IdPool.allocate, hfree]; rfl, by simp [IdPool.allocate, hfree]⟩
  pool_free _ _ := rfl
  pool_ensureAllocated h := by
    simp only [ensureAllocated] at h
    split_ifs at h with hid <;> obtain rfl := Except.ok.inj h
    · simp only [nextId_ensureCapacity, freeList_ensureCapacity, IdPool.reserve, IdPool.mk.injEq,
        and_true]
      omega
    · simp only [IdPool.reserve, IdPool.mk.injEq, and_true]
      omega
  pool_write h := by
    obtain rfl := Except.ok.inj h
    rfl
  pool_sync h := by
    obtain ⟨-, rfl⟩ := sync_eq_ok.mp h
    rfl

end DiskBlockStore

/-! ### The store in a file -/

structure TrackedStore where
  store : DiskBlockStore
  live : Finset Nat
  last : Nat → Option Block

inductive DiskEvent where
  | allocate (id : Nat)
  | free (id : Nat)
  | write (id : Nat) (b : Block)
  | sync
  | reopen

namespace TrackedStore

def fresh (s : DiskBlockStore) : TrackedStore := ⟨s, ∅, fun _ => none⟩

/-- One call.  `next_id` is a `u64`, so it stays below `2 ^ 64`.  Only ids in use are
    freed; any id may be written, but a block that was never issued is not tracked. -/
inductive Step (t : TrackedStore) : DiskEvent → TrackedStore → Prop
  | allocate {id : Nat} {s : DiskBlockStore} (hcall : BlockStore.allocate t.store = .ok (id, s))
      (hnext : s.nextId < 2 ^ 64) : Step t (.allocate id) ⟨s, insert id t.live, t.last⟩
  | free {id : Nat} (hlive : id ∈ t.live) :
      Step t (.free id) ⟨BlockStore.free t.store id, t.live.erase id, t.last⟩
  | write {id : Nat} {b : Block} {s : DiskBlockStore}
    (hcall : BlockStore.write t.store id b = .ok s) :
      Step t (.write id b)
        ⟨s, t.live, if id < blockCount t.store then Function.update t.last id (some b) else t.last⟩
  | sync {s : DiskBlockStore} (hcall : BlockStore.sync t.store = .ok s) : Step t .sync
    ⟨s, t.live, t.last⟩
  | syncFailed {e : FsError} (hcall : BlockStore.sync t.store = .error e) : Step t .sync t
  | reopen {s s' : DiskBlockStore} (hsync : BlockStore.sync t.store = .ok s)
      (hopen : DiskBlockStore.open s.file = .ok s') : Step t .reopen ⟨s', t.live, t.last⟩

/-- The file holds every id that was issued, with what was written to it. -/
structure Sound (t : TrackedStore) : Prop where
  pool : (pool t.store).Issues t.live
  next : t.store.nextId < 2 ^ 64
  capacity : t.store.capacityBlocks ≤ t.store.file.length
  covered : t.store.nextId ≤ t.store.file.length
  last : ∀ id b, t.last id = some b → id < t.store.nextId ∧ (id ≠ 0 → t.store.file[id]? = some b)

theorem sound_fresh {s : DiskBlockStore} (hopen : DiskBlockStore.open [] = .ok s) :
    (fresh s).Sound := by
  obtain ⟨v, hv, hvalid, hnext, hlength, -⟩ := open_of_empty
  obtain rfl := Except.ok.inj (hopen.symm.trans hv)
  refine ⟨⟨hvalid.nextId, nofun, ?_, ?_⟩, ?_, hvalid.capacity, ?_, nofun⟩
  · show ∀ id ∈ s.freeList, _
    rw [hvalid.freeList]
    nofun
  · show s.freeList.Nodup
    rw [hvalid.freeList]
    exact List.nodup_nil
  · show s.nextId < 2 ^ 64
    rw [hnext]
    decide
  · show s.nextId ≤ s.file.length
    rw [hnext, hlength]

variable {t u : TrackedStore} {e : DiskEvent}

theorem Sound.allocate (h : t.Sound) {id : Nat} {s : DiskBlockStore}
    (hcall : BlockStore.allocate t.store = .ok (id, s)) (hnext : s.nextId < 2 ^ 64) :
    Sound ⟨s, insert id t.live, t.last⟩ := by
  obtain ⟨s₁, hcall₁, hpool⟩ := allocate_spec t.store
  obtain ⟨hid, rfl⟩ := Prod.mk.inj (Except.ok.inj (hcall₁.symm.trans hcall))
  have hissues := h.pool.allocate.2.2
  rw [← hpool, hid] at hissues
  simp only [BlockStore.allocate] at hcall
  split at hcall
  · -- a freed id: the file stays as it is
    obtain ⟨-, rfl⟩ := Prod.mk.inj (Except.ok.inj hcall)
    exact ⟨hissues, hnext, h.capacity, h.covered, h.last⟩
  · obtain ⟨-, rfl⟩ := Prod.mk.inj (Except.ok.inj hcall)
    obtain ⟨file, cap, hrun, hcap, hblocks, hkeep⟩ := DiskBlockStore.ensureCapacity_spec
      (show ({ t.store with nextId := t.store.nextId + 1 } : DiskBlockStore).capacityBlocks
        ≤ _ from h.capacity)
      (t.store.nextId + 1)
    rw [hrun] at hissues hnext ⊢
    refine ⟨hissues, hnext, hcap, hblocks, fun i b hb => ?_⟩
    obtain ⟨hlt, hfile⟩ := h.last i b hb
    have hsame := hkeep i (Nat.lt_succ_of_lt hlt) (hlt.trans_le h.covered)
    exact ⟨Nat.lt_succ_of_lt hlt, fun hne => hsame.trans (hfile hne)⟩

theorem Sound.getElem?_writeAllAt (h : t.Sound) {i id : Nat} {b c : Block}
    (hlast : t.last i = some c) (hpos : i ≠ 0) (hne : i ≠ id) :
    (writeAllAt t.store.file id b)[i]? = some c := by
  obtain ⟨hlt, hfile⟩ := h.last i c hlast
  rw [Filesystem.getElem?_writeAllAt, if_neg hne,
    List.getElem?_append_left (hlt.trans_le h.covered), hfile hpos]

theorem Sound.write (h : t.Sound) {id : Nat} {b : Block} {s : DiskBlockStore}
    (hcall : BlockStore.write t.store id b = .ok s) :
    Sound ⟨s, t.live, if id < blockCount t.store then Function.update t.last id (some b) else
      t.last⟩ := by
  obtain rfl := Except.ok.inj hcall
  refine ⟨h.pool, h.next, h.capacity.trans (length_le_writeAllAt _ id b),
    h.covered.trans (length_le_writeAllAt _ id b), fun i c hc => ?_⟩
  dsimp only at hc ⊢
  split_ifs at hc with hid
  · by_cases hi : i = id
    · subst hi
      rw [Function.update_self] at hc
      exact ⟨hid, fun _ => by rw [Filesystem.getElem?_writeAllAt, if_pos rfl, hc]⟩
    · rw [Function.update_of_ne hi] at hc
      exact ⟨(h.last i c hc).1, fun hpos => h.getElem?_writeAllAt hc hpos hi⟩
  · have hlt := (h.last i c hc).1
    refine ⟨hlt, fun hpos => h.getElem?_writeAllAt hc hpos ?_⟩
    rintro rfl
    exact hid hlt

theorem Sound.sync (h : t.Sound) {s : DiskBlockStore} (hcall : BlockStore.sync t.store = .ok s) :
    Sound ⟨s, t.live, t.last⟩ := by
  obtain ⟨-, rfl⟩ := DiskBlockStore.sync_eq_ok.mp hcall
  exact ⟨h.pool, h.next, h.capacity.trans (length_le_writeAllAt _ 0 _),
    h.covered.trans (length_le_writeAllAt _ 0 _),
    fun i c hc => ⟨(h.last i c hc).1, fun hpos => h.getElem?_writeAllAt hc hpos hpos⟩⟩

theorem Sound.open_of_sync (h : t.Sound) {s : DiskBlockStore}
    (hcall : BlockStore.sync t.store = .ok s) :
    DiskBlockStore.open s.file = .ok { s with capacityBlocks := s.file.length } := by
  have hs := h.sync hcall
  obtain ⟨hfree, heq⟩ := DiskBlockStore.sync_eq_ok.mp hcall
  have hpos : s.file.length ≠ 0 := (hs.pool.next.trans_le hs.covered).ne'
  rw [DiskBlockStore.open, if_neg hpos, DiskBlockStore.readSuperblock_superblock
    (superblock_of_sync hcall)
    (by rw [heq]; exact hfree) hs.next (fun id hid => (hs.pool.free id hid).2.trans hs.next)]
  rfl

theorem Sound.step (h : t.Sound) (hstep : Step t e u) : u.Sound := by
  cases hstep with
  | allocate hcall hnext => exact h.allocate hcall hnext
  | free hlive => exact ⟨h.pool.release hlive, h.next, h.capacity, h.covered, h.last⟩
  | write hcall => exact h.write hcall
  | sync hcall => exact h.sync hcall
  | syncFailed => exact h
  | reopen hsync hopen =>
    obtain rfl := Except.ok.inj ((h.open_of_sync hsync).symm.trans hopen)
    have hs := h.sync hsync
    exact ⟨hs.pool, hs.next, le_rfl, hs.covered, hs.last⟩

end TrackedStore

/-- **The store in a file hands out no id in use**, and never the superblock's.  The file
    covers the ids in use, reading one gives the block last written to it, and after a
    sync the file can be opened again. -/
theorem disk_blocks_sound {s : DiskBlockStore} (hopen : DiskBlockStore.open [] = .ok s)
    {es : List DiskEvent} {t : TrackedStore} (hrun : Run TrackedStore.Step (.fresh s) es t) :
    (∃ id s', allocate t.store = .ok (id, s') ∧ id ∉ t.live ∧ id ≠ 0) ∧
      (∀ id ∈ t.live, id < t.store.file.length) ∧
      (∀ id ∈ t.live, ∀ b, t.last id = some b → read t.store id = .ok b) ∧
      ∀ s', sync t.store = .ok s' → ∃ s'', DiskBlockStore.open s'.file = .ok s'' := by
  have h : t.Sound := hrun.history (P := fun _ t => t.Sound) (TrackedStore.sound_fresh hopen)
    (fun _ _ _ _ h hstep => h.step hstep)
  obtain ⟨s', hcall, -⟩ := allocate_spec t.store
  obtain ⟨hfresh, hpos, -⟩ := h.pool.allocate
  refine ⟨⟨_, s', hcall, hfresh, hpos.ne'⟩, fun id hid => ?_, fun id hid b hb => ?_,
    fun s' hsync => ⟨_, h.open_of_sync hsync⟩⟩
  · exact (h.pool.live id hid).2.1.trans_le h.covered
  · exact readExactAt_eq_ok.mpr ((h.last id b hb).2 (h.pool.live id hid).1.ne')

theorem disk_blocks_sound_reopened : ∃ s t, DiskBlockStore.open [] = .ok s ∧
    Run TrackedStore.Step (.fresh s) [.allocate 1, .write 1 Block.zeroed, .reopen] t
      ∧ t.live = {1} ∧
    read t.store 1 = .ok Block.zeroed ∧ ∃ id s', allocate t.store = .ok (id, s') ∧ id ∉ t.live := by
  obtain ⟨s, hopen, hvalid, hone, -⟩ := open_of_empty
  obtain ⟨s₁, hcall, hpool⟩ := allocate_spec s
  have hid : (pool s).allocate = (1, ⟨2, []⟩) := by
    simp [IdPool.allocate, pool, hvalid.freeList, hone]
  rw [hid] at hcall hpool
  have hnext : s₁.nextId = 2 := congrArg IdPool.next hpool
  have hfree : s₁.freeList = [] := congrArg IdPool.free hpool
  have hstep : TrackedStore.Step (.fresh s) (.allocate 1) ⟨s₁, insert 1 ∅, fun _ => none⟩ :=
    .allocate hcall (by rw [hnext]; decide)
  have hrun := (Run.nil.snoc hstep).snoc (@TrackedStore.Step.write _ 1 Block.zeroed _ rfl)
  have hroom : s₁.freeList.length ≤ MAX_FREE := by simp [hfree]
  have hsync :=
    DiskBlockStore.sync_eq_ok (s := { s₁ with file := writeAllAt s₁.file 1 Block.zeroed }).mpr
      ⟨hroom, rfl⟩
  obtain ⟨s₃, hreopen⟩ := (disk_blocks_sound hopen hrun).2.2.2 _ hsync
  have hrun' := hrun.snoc (TrackedStore.Step.reopen hsync hreopen)
  obtain ⟨⟨id, s', hcall', hfresh, -⟩, -, hread, -⟩ := disk_blocks_sound hopen hrun'
  refine ⟨s, _, hopen, hrun', insert_empty_eq 1, hread 1 ?_ _ ?_, id, s', hcall', hfresh⟩
  · exact Finset.mem_insert_self 1 ∅
  · have hlt : 1 < blockCount s₁ := Nat.one_lt_two.trans_eq hnext.symm
    simp only [if_pos hlt, Function.update_self]

/-! ### Crashes -/

def redone (hash : Bytes → UInt32) (journal : Journal) : List JournalOp :=
  match (Journal.replay hash pageOpCodec journal.file).mapM id with
  | .ok records => (committed records).getD []
  | .error _ => []

def writtenIds (ops : List JournalOp) : List Nat :=
  ops.filterMap fun
    | .write id _ => some id
    | .commit => none

section Recovery

variable {V : Type} [BlockStore V] [PooledBlockStore V] {hash : Bytes → UInt32} {v v' : V}

theorem pool_applyImages {ops : List JournalOp} (h : applyImages ops v = .ok v') :
    pool v' = (writtenIds ops).foldl IdPool.reserve (pool v) := by
  induction ops generalizing v with
  | nil =>
    obtain rfl := Except.ok.inj h
    rfl
  | cons op ops ih =>
    cases op with
    | commit => exact ih h
    | write id image =>
      obtain ⟨v₁, hensure, h⟩ := Runs.bind_eq_ok.mp h
      obtain ⟨b, -, h⟩ := Runs.bind_eq_ok.mp h
      obtain ⟨v₂, hwrite, h⟩ := Runs.bind_eq_ok.mp h
      rw [ih h, pool_write (Runs.mapError_eq_ok.mp hwrite),
        pool_ensureAllocated (Runs.mapError_eq_ok.mp hensure)]
      rfl

theorem pool_recover {journal : Journal} (h : recover hash v journal = .ok v') :
    pool v' = (writtenIds (redone hash journal)).foldl IdPool.reserve (pool v) := by
  obtain ⟨records, hrecords, h⟩ := Runs.bind_eq_ok.mp h
  rw [Runs.mapError_eq_ok] at hrecords
  rw [redone, hrecords]
  split at h <;> rename_i hops
  · obtain rfl := Except.ok.inj h
    simp only [hops]
    rfl
  · obtain ⟨v₁, happly, h⟩ := Runs.bind_eq_ok.mp h
    rw [pool_sync (Runs.mapError_eq_ok.mp h), pool_applyImages happly]
    simp only [hops]
    rfl

end Recovery

/-- A store, the pool of its last sync, and at both the pages that were recovered and not
    freed since. -/
structure Recovered (V : Type) where
  store : V
  synced : IdPool
  kept : Set Nat
  keptSynced : Set Nat

inductive CrashEvent where
  | allocate (id : Nat)
  | free (id : Nat)
  | sync
  | recover (ids : List Nat)

namespace Recovered

variable {V : Type} [BlockStore V] [PooledBlockStore V]

def start (v : V) : Recovered V := ⟨v, pool v, ∅, ∅⟩

/-- One call; or a crash, from which the store comes back with the pool of the last sync,
    and the recovery from a journal. -/
inductive Step (hash : Bytes → UInt32) (s : Recovered V) : CrashEvent → Recovered V → Prop
  | allocate {id : Nat} {v : V} (hcall : BlockStore.allocate s.store = .ok (id, v)) :
      Step hash s (.allocate id) { s with store := v }
  | free (id : Nat) :
      Step hash s (.free id) { s with store := BlockStore.free s.store id, kept := s.kept \ {id} }
  | sync {v : V} (hcall : BlockStore.sync s.store = .ok v) : Step hash s .sync
    ⟨v, pool v, s.kept, s.kept⟩
  | recover {v₀ v : V} {journal : Journal} (hcrash : pool v₀ = s.synced)
      (hcall : Filesystem.recover hash v₀ journal = .ok v) :
      Step hash s (.recover (writtenIds (redone hash journal)))
        ⟨v, pool v, s.keptSynced ∪ {id | id ∈ writtenIds (redone hash journal)},
          s.keptSynced ∪ {id | id ∈ writtenIds (redone hash journal)}⟩

/-- The ids written are not on the free list of the last sync. -/
def Clean (s : Recovered V) : CrashEvent → Prop
  | .recover ids => ∀ id ∈ ids, id ∉ s.synced.free
  | _ => True

def CleanStep (hash : Bytes → UInt32) (s : Recovered V) (e : CrashEvent) (t : Recovered V) : Prop :=
  Step hash s e t ∧ s.Clean e

variable {hash : Bytes → UInt32} {s t : Recovered V} {e : CrashEvent}

/-- The pages kept are in neither pool. -/
structure Sound (s : Recovered V) : Prop where
  store : (pool s.store).Keeps s.kept
  synced : s.synced.Keeps s.keptSynced

theorem sound_start (v : V) : (start v).Sound := ⟨nofun, nofun⟩

theorem Sound.step (h : s.Sound) (hstep : CleanStep hash s e t) : t.Sound := by
  obtain ⟨hstep, hclean⟩ := hstep
  cases hstep with
  | allocate hcall =>
    obtain ⟨v, hcall', hpool⟩ := allocate_spec s.store
    obtain ⟨-, rfl⟩ := Prod.mk.inj (Except.ok.inj (hcall'.symm.trans hcall))
    refine ⟨?_, h.synced⟩
    rw [hpool]
    exact h.store.allocate.2
  | free id =>
    refine ⟨?_, h.synced⟩
    rw [pool_free]
    exact h.store.release id
  | sync hcall =>
    have hkeeps := h.store
    rw [← pool_sync hcall] at hkeeps
    exact ⟨hkeeps, hkeeps⟩
  | recover hcrash hcall =>
    have hkeeps := h.synced.reserve_foldl hclean
    rw [← hcrash, ← pool_recover hcall] at hkeeps
    exact ⟨hkeeps, hkeeps⟩

theorem run_allocate (s : Recovered V) (n : Nat) : ∃ es t, Run (CleanStep hash) s es t ∧
    pool t.store = (fun p : IdPool => p.allocate.2)^[n] (pool s.store) ∧ t.kept = s.kept := by
  induction n with
  | zero => exact ⟨[], s, .nil, rfl, rfl⟩
  | succ n ih =>
    obtain ⟨es, t, hrun, hpool, hkept⟩ := ih
    obtain ⟨v, hcall, hpool'⟩ := allocate_spec t.store
    refine ⟨_, _, hrun.snoc ⟨.allocate hcall, trivial⟩, ?_, hkept⟩
    rw [hpool', hpool, Function.iterate_succ_apply']

end Recovered

theorem exists_recover (hash : Bytes → UInt32) {v : DiskBlockStore}
    (hroom : v.freeList.length ≤ MAX_FREE) {id : Nat} (hid : id < 2 ^ 64) (b : Block) :
    ∃ journal v', redone hash journal = [.write id b.bytes] ∧ recover hash v journal = .ok v' := by
  have hreplay := @Journal.replay_contents JournalOp hash pageOpCodec [.write id b.bytes, .commit]
    (fun op hop => by
      rcases List.mem_cons.mp hop with rfl | hop
      · refine ⟨?_, pageOpCodec_lawful hid⟩
        simp [pageOpCodec, JournalOp.encode, b.length_eq, BLOCK_SIZE]
      · obtain rfl := List.mem_singleton.mp hop
        exact ⟨by decide, pageOpCodec_lawful trivial⟩)
    [] (Journal.tornTail_nil hash)
  obtain ⟨journal, -, hfile⟩ :=
    Journal.withCodec_contents hash pageOpCodec [.write id b.bytes, .commit] []
  rw [← hfile] at hreplay
  have hensure : ∃ v₁, ensureAllocated v id = .ok v₁ := by
    simp only [ensureAllocated]
    split_ifs <;> exact ⟨_, rfl⟩
  obtain ⟨v₁, hensure⟩ := hensure
  have hfree : v₁.freeList = v.freeList := congrArg IdPool.free (pool_ensureAllocated hensure)
  have hcopy : Block.copyFromSlice b.bytes = .ok b := dif_pos b.length_eq
  obtain ⟨v₂, hsync⟩ : ∃ v₂, sync { v₁ with file := writeAllAt v₁.file id b } = .ok v₂ :=
    ⟨_, DiskBlockStore.sync_eq_ok.mpr ⟨by rw [hfree]; exact hroom, rfl⟩⟩
  refine ⟨journal, v₂, by rw [redone, hreplay]; rfl, ?_⟩
  rw [recover, hreplay]
  show (applyImages [.write id b.bytes] v >>= fun v => (sync v).mapError .error) = _
  simp only [applyImages, hensure, hcopy]
  show (sync { v₁ with file := writeAllAt v₁.file id b }).mapError Fault.error = _
  rw [hsync]
  rfl

/-- **A recovered page is handed out again exactly when it was on the free list of the last
    sync.**  Whatever happened before, for a recovery that writes the pages `ids`: in no run
    from it does `allocate` return a recovered page that was not freed since, if and only if
    none of `ids` was on that list. -/
theorem recovered_not_reissued {V : Type} [BlockStore V] [PooledBlockStore V]
    {hash : Bytes → UInt32} {v : V} {es : List CrashEvent} {s t : Recovered V} {ids : List Nat}
    (hrun : Run (Recovered.CleanStep hash) (.start v) es s)
    (hrecover : Recovered.Step hash s (.recover ids) t) :
    (∀ es' u id v', Run (Recovered.CleanStep hash) t es' u → allocate u.store = .ok (id, v') →
      id ∉ u.kept) ↔
      ∀ id ∈ ids, id ∉ s.synced.free := by
  have hs : s.Sound := hrun.history (P := fun _ s => s.Sound) (Recovered.sound_start v)
    (fun _ _ _ _ h hstep => h.step hstep)
  constructor
  · -- an id on the free list is handed out sooner or later
    intro hkept id hid hfree
    have hmem : id ∈ (pool t.store).free ∧ id ∈ t.kept := by
      cases hrecover with
      | recover hcrash hcall =>
        refine ⟨?_, Or.inr hid⟩
        rw [pool_recover hcall, IdPool.free_foldl_reserve, hcrash]
        exact hfree
    obtain ⟨n, hn⟩ := IdPool.exists_allocate_of_mem_free hmem.1
    obtain ⟨es', u, hrun', hpool, hsame⟩ := @Recovered.run_allocate _ _ _ hash t n
    obtain ⟨v', hcall, -⟩ := allocate_spec u.store
    refine hkept es' u _ v' hrun' hcall ?_
    rw [hpool, hn, hsame]
    exact hmem.2
  · intro hclean es' u id v' hrun' hcall
    have ht : t.Sound := hs.step ⟨hrecover, hclean⟩
    have hu : u.Sound :=
      hrun'.history (P := fun _ s => s.Sound) ht (fun _ _ _ _ h hstep => h.step hstep)
    obtain ⟨v'', hcall', -⟩ := allocate_spec u.store
    obtain ⟨rfl, -⟩ := Prod.mk.inj (Except.ok.inj (hcall'.symm.trans hcall))
    exact hu.store.allocate.1

/-- Page 1 of a new file is allocated, freed, and on the free list of the next sync. -/
theorem exists_freed (hash : Bytes → UInt32) :
    ∃ v v₂ : DiskBlockStore, DiskBlockStore.open [] = .ok v ∧
    pool v₂ = ⟨2, [1]⟩ ∧ Run (Recovered.CleanStep hash) (.start v) [.allocate 1, .free 1, .sync]
      ⟨v₂, ⟨2, [1]⟩, ∅ \ {1}, ∅ \ {1}⟩ := by
  obtain ⟨v, hopen, hvalid, hone, -⟩ := open_of_empty
  obtain ⟨v₁, hcall₁, hpool₁⟩ := allocate_spec v
  have hpool : pool v = ⟨1, []⟩ := by simp [pool, hvalid.freeList, hone]
  rw [hpool] at hcall₁ hpool₁
  have hfreed : pool (free v₁ 1) = ⟨2, [1]⟩ := by rw [pool_free, hpool₁]; rfl
  have hroom : (free v₁ 1).freeList.length ≤ MAX_FREE := by
    rw [show (free v₁ 1).freeList = [1] from congrArg IdPool.free hfreed]
    decide
  obtain ⟨v₂, hsync⟩ : ∃ v₂, sync (free v₁ 1) = .ok v₂ :=
    ⟨_, DiskBlockStore.sync_eq_ok.mpr ⟨hroom, rfl⟩⟩
  have hpool₂ := (pool_sync hsync).trans hfreed
  refine ⟨v, v₂, hopen, hpool₂, ?_⟩
  rw [← hpool₂]
  exact ((Run.nil.snoc ⟨.allocate hcall₁, trivial⟩).snoc ⟨.free 1, trivial⟩).snoc
    ⟨.sync hsync, trivial⟩

theorem exists_recover_step (hash : Bytes → UInt32) {v : DiskBlockStore}
    (hroom : v.freeList.length ≤ MAX_FREE) {id : Nat} (hid : id < 2 ^ 64)
    {s : Recovered DiskBlockStore} (hcrash : pool v = s.synced) :
    ∃ t, Recovered.Step hash s (.recover [id]) t ∧ id ∈ t.kept
      ∧ pool t.store = s.synced.reserve id := by
  obtain ⟨journal, v', hredone, hrecover⟩ := exists_recover hash hroom hid Block.zeroed
  have hstep := Recovered.Step.recover hcrash hrecover
  have hpool := pool_recover hrecover
  have hids : writtenIds (redone hash journal) = [id] := by rw [hredone]; rfl
  rw [hids] at hstep hpool
  rw [hcrash] at hpool
  exact ⟨_, hstep, Or.inr (List.mem_singleton.mpr rfl), hpool⟩

/-- Page 1 is on the free list of the last sync, and page 5 is recovered. -/
theorem recovered_not_reissued_freed :
    ∃ (v : DiskBlockStore) (s t : Recovered DiskBlockStore), DiskBlockStore.open [] = .ok v ∧
      Run (Recovered.CleanStep Crc.crc32) (.start v) [.allocate 1, .free 1, .sync] s
        ∧ s.synced.free = [1] ∧
      Recovered.Step Crc.crc32 s (.recover [5]) t ∧
      ∀ es u id v', Run (Recovered.CleanStep Crc.crc32) t es u → allocate u.store = .ok (id, v') →
        id ∉ u.kept := by
  obtain ⟨v, v₂, hopen, hpool, hrun⟩ := exists_freed Crc.crc32
  have hroom : v₂.freeList.length ≤ MAX_FREE := by
    rw [show v₂.freeList = [1] from congrArg IdPool.free hpool]
    decide
  obtain ⟨t, hstep, -⟩ :=
    @exists_recover_step Crc.crc32 v₂ hroom 5 (by decide) ⟨v₂, ⟨2, [1]⟩, ∅ \ {1}, ∅ \ {1}⟩ hpool
  exact ⟨v, _, t, hopen, hrun, rfl, hstep, (recovered_not_reissued hrun hstep).mpr (by simp)⟩

/-- Page 1 is freed before the last sync and handed out again after it; its new content
    reaches the journal, but not the superblock. -/
theorem freed_page_reissued :
    ∃ (v v' : DiskBlockStore) (s t : Recovered DiskBlockStore), DiskBlockStore.open [] = .ok v ∧
      Run (Recovered.Step Crc.crc32) (.start v) [.allocate 1, .free 1, .sync, .allocate 1] s ∧
      Recovered.Step Crc.crc32 s (.recover [1]) t ∧ 1 ∈ t.kept
        ∧ allocate t.store = .ok (1, v') := by
  obtain ⟨v, v₂, hopen, hpool, hrun⟩ := exists_freed Crc.crc32
  have hroom : v₂.freeList.length ≤ MAX_FREE := by
    rw [show v₂.freeList = [1] from congrArg IdPool.free hpool]
    decide
  obtain ⟨v₃, hcall₃, -⟩ := allocate_spec v₂
  rw [hpool] at hcall₃
  obtain ⟨t, hstep, hkept, hpool'⟩ := @exists_recover_step Crc.crc32 v₂ hroom 1 (by decide)
    ⟨v₃, ⟨2, [1]⟩, ∅ \ {1}, ∅ \ {1}⟩ hpool
  obtain ⟨v', hcall, -⟩ := allocate_spec t.store
  rw [hpool'] at hcall
  exact ⟨v, v', _, t, hopen, (hrun.mono fun _ _ _ h => h.1).snoc (.allocate hcall₃), hstep,
    hkept, hcall⟩

/-! ### The first opening -/

inductive FileOp where
  | create
  | setLen (blocks : Nat)
  | writeAllAt (id : Nat) (b : Block)
  | syncAll

def FileOp.apply (file : Option (List Block)) : FileOp → Option (List Block)
  | .create => some (file.getD [])
  | .setLen blocks => file.map (Filesystem.setLen · blocks)
  | .writeAllAt id b => file.map (Filesystem.writeAllAt · id b)
  | .syncAll => file

def firstOpen : List FileOp :=
  [.create, .setLen 1, .writeAllAt 0 (DiskBlockStore.superblock 1 []), .syncAll]

def openPath (file : Option (List Block)) : Except FsError DiskBlockStore :=
  DiskBlockStore.open (file.getD [])

theorem open_zeroed : DiskBlockStore.open [Block.zeroed] = .error .badMagic := by
  have hmagic : Block.zeroed.get 0 4 ≠ SUPER_MAGIC := by
    rw [Block.get_zeroed (by decide)]
    decide
  rw [DiskBlockStore.open, if_neg (by simp), DiskBlockStore.readSuperblock, readExactAt]
  simp only [List.getElem?_cons_zero, bind, Except.bind, if_pos hmagic]

theorem open_superblock : DiskBlockStore.open [DiskBlockStore.superblock 1 []]
    = .ok ⟨[DiskBlockStore.superblock 1 []], 1, 1, []⟩ := by
  rw [DiskBlockStore.open, if_neg (by simp),
    DiskBlockStore.readSuperblock_superblock rfl (Nat.zero_le _) (by decide) (by simp)]
  rfl

theorem foldl_take_firstOpen (k : Nat) : ((firstOpen.take k).foldl FileOp.apply none).getD [] =
    if k ≤ 1 then [] else if k = 2 then [Block.zeroed] else [DiskBlockStore.superblock 1 []] := by
  match k with
  | 0 => rfl
  | 1 => rfl
  | 2 => rfl
  | 3 => rfl
  | k + 4 =>
    rw [List.take_of_length_le (by simp [firstOpen]), if_neg (by omega), if_neg (by omega)]
    rfl

/-- **An opening that was interrupted is done again, except between growing the file and
    writing the superblock.**  After the first `k` steps a later `open` gives an empty store
    that hands out id 1 first, if and only if `k` is not 2. -/
theorem first_open_interrupted (k : Nat) :
    (∃ s s', openPath ((firstOpen.take k).foldl FileOp.apply none) = .ok s ∧ s.freeList = [] ∧
      blockCount s = 1 ∧ allocate s = .ok (1, s')) ↔ k ≠ 2 := by
  rw [openPath, foldl_take_firstOpen]
  split_ifs with hearly hgrown
  · exact ⟨fun _ => by omega, fun _ => ⟨_, _, rfl, rfl, rfl, rfl⟩⟩
  · refine ⟨fun ⟨s, s', hopen, _⟩ => ?_, fun h => absurd hgrown h⟩
    rw [open_zeroed] at hopen
    cases hopen
  · exact ⟨fun _ => hgrown, fun _ => ⟨_, _, open_superblock, rfl, rfl, rfl⟩⟩

/-- The file was grown, but has no superblock yet. -/
theorem first_open_torn :
    openPath ((firstOpen.take 2).foldl FileOp.apply none) = .error .badMagic := by
  rw [openPath, foldl_take_firstOpen]
  exact open_zeroed

end StrataDb.Filesystem
