import StrataDb.HeapDisk
import StrataDb.LsmVisibility
import StrataDb.StorageError

/-!
# The storage engine (`crates/strata-store/src/engine.rs`, `iterator.rs`): an index over a heap

The tree maps a key to the location of a tuple, and the heap has the tuple. A scan keeps the page
of its current row pinned. `get` gives out a view that pins its page (`view`); `get` here is what
its callers do with it, take the bytes and drop it.
-/

namespace StrataDb.Store

open ByteCodec OrderedMap
open Filesystem (Block BlockStore DiskBlockStore EvictionPolicy LruK Crc32c FsError Heap Inner
  TupleLoc)
open Lsm (BTreeMemtable FastBloom LsmConfig LsmError)

inductive Fault where
  | error (e : StorageError)
  | panicked (msg : String)
deriving DecidableEq, Repr

def Fault.ofLsm : Lsm.Fault → Fault
  | .error e => .error (.ofLsm e)
  | .panicked msg => .panicked msg

def Fault.ofBlock (e : FsError) : Fault := .error (.ofBlock e)

def Fault.ofHeap : Filesystem.Fault → Fault
  | .error e => .ofBlock e
  | .panicked msg => .panicked msg

def decodeLoc (bytes : Bytes) : Except StorageError TupleLoc :=
  match TupleLoc.decode bytes with
  | some loc => .ok loc
  | none =>
    .error (.corruption ("malformed tuple location (" ++ toString (bytes.map (·.toNat)) ++ ")"))

structure StorageEngine (V P : Type) (n : Nat) where
  index : Lsm
  heap : Heap V P n

/-! ### Scans -/

namespace Scan

variable {V P : Type} {n : Nat} [BlockStore V] [EvictionPolicy P (Fin n)]
variable (crc : Crc32c) (hash : Bytes → UInt32)

/-- The frame of a page: the one held if it is that page, else a new one, and the one held
    is dropped. -/
def pin (c : Inner V P n) (current : Option (Nat × Fin n)) (id : Nat) :
    Except FsError (Fin n) × Inner V P n :=
  match current with
  | none => c.acquireRead crc hash id
  | some (held, f) =>
    if held = id then (.ok f, c)
    else
      match c.acquireRead crc hash id with
      | (.error e, c) => (.error e, c)
      | (.ok f', c) => (.ok f', c.releaseRead f)

/-- The rows of the index entries, pulled one by one: a key with the bytes of its tuple,
    none if the slot is deleted. -/
def rows : List (Except LsmError (Bytes × Bytes)) → Option (Nat × Fin n) → Inner V P n →
    List (Except StorageError (Bytes × Option Bytes)) × Inner V P n
  | [], none, c => ([], c)
  | [], some (_, f), c => ([], c.releaseRead f)
  | .error e :: rest, current, c =>
    let (out, c) := rows rest current c
    (.error (.ofLsm e) :: out, c)
  | .ok (key, locBytes) :: rest, current, c =>
    match decodeLoc locBytes with
    | .error e =>
      let (out, c) := rows rest current c
      (.error e :: out, c)
    | .ok loc =>
      match pin crc hash c current loc.pageId with
      | (.error e, c) =>
        let (out, c) := rows rest current c
        (.error (.ofBlock e) :: out, c)
      | (.ok f, c) =>
        let bytes := Heap.viewBytes loc.slotId (c.frames f).buf
        let (out, c) := rows rest (some (loc.pageId, f)) c
        (.ok (key, bytes) :: out, c)

end Scan

/-! ### Calls -/

namespace StorageEngine

variable {V P : Type} {n : Nat} [BlockStore V] [EvictionPolicy P (Fin n)]
variable (B : FastBloom) (crc32 : Bytes → UInt32) (crc : Crc32c) (hash : Bytes → UInt32)

def put (e : StorageEngine V P n) (key value : Bytes) : Except Fault Unit × StorageEngine V P n :=
  match e.heap.insert crc hash value with
  | (.error err, heap) => (.error (.ofBlock err), { e with heap := heap })
  | (.ok loc, heap) =>
    let (r, index) := e.index.put crc32 key loc.encode
    (r.mapError .ofLsm, ⟨index, heap⟩)

def delete (e : StorageEngine V P n) (key : Bytes) : Except Fault Unit × StorageEngine V P n :=
  let (r, index) := e.index.delete crc32 key
  (r.mapError .ofLsm, { e with index := index })

/-- `flush`: the heap first, so that the index does not get ahead of it. -/
def flush (e : StorageEngine V P n) : Except Fault Unit × StorageEngine V P n :=
  match e.heap.flush crc hash with
  | (.error err, heap) => (.error (.ofBlock err), { e with heap := heap })
  | (.ok (), heap) =>
    match e.index.flush B crc32 with
    | .error f => (.error (.ofLsm f), { e with heap := heap })
    | .ok index => (.ok (), ⟨index, heap⟩)

structure TupleRef (n : Nat) where
  frame : Fin n
  pageId : Nat
  slot : Nat

/-- `get`, as the source has it: a view of the tuple. -/
def view (e : StorageEngine V P n) (key : Bytes) :
    Except Fault (Option (TupleRef n)) × StorageEngine V P n :=
  match e.index.get B key with
  | .error err => (.error (.error (.ofLsm err)), e)
  | .ok none => (.ok none, e)
  | .ok (some locBytes) =>
    match decodeLoc locBytes with
    | .error err => (.error (.error err), e)
    | .ok loc =>
      match e.heap.cache.acquireRead crc hash loc.pageId with
      | (.error err, cache) =>
        (.error (.ofBlock err), { e with heap := { e.heap with cache := cache } })
      | (.ok f, cache) =>
        (.ok (some ⟨f, loc.pageId, loc.slotId⟩), { e with heap := { e.heap with cache := cache } })

def bytes (e : StorageEngine V P n) (r : TupleRef n) : Option Bytes :=
  Heap.viewBytes r.slot (e.heap.cache.frames r.frame).buf

def drop (e : StorageEngine V P n) (r : TupleRef n) : StorageEngine V P n :=
  { e with heap := { e.heap with cache := e.heap.cache.releaseRead r.frame } }

/-- `get`, the bytes of the view, and the view dropped; the inner `none` is a deleted slot. -/
def get (e : StorageEngine V P n) (key : Bytes) :
    Except Fault (Option (Option Bytes)) × StorageEngine V P n :=
  match e.index.get B key with
  | .error err => (.error (.error (.ofLsm err)), e)
  | .ok none => (.ok none, e)
  | .ok (some locBytes) =>
    match decodeLoc locBytes with
    | .error err => (.error (.error err), e)
    | .ok loc =>
      let (r, heap) := e.heap.get crc hash loc
      ((r.map some).mapError .ofBlock, { e with heap := heap })

def scanAt (e : StorageEngine V P n) (start stop : Bound Bytes) (maxSeq : UInt64) :
    Except Fault (List (Except StorageError (Bytes × Option Bytes))) × StorageEngine V P n :=
  match e.index.scanAt B start stop maxSeq with
  | .error f => (.error (.ofLsm f), e)
  | .ok items =>
    let (out, cache) := Scan.rows crc hash items none e.heap.cache
    (.ok out, { e with heap := { e.heap with cache := cache } })

def scan (e : StorageEngine V P n) (start stop : Bound Bytes) :
    Except Fault (List (Except StorageError (Bytes × Option Bytes))) × StorageEngine V P n :=
  e.scanAt B crc hash start stop e.index.seq

end StorageEngine

def HEAP_FRAMES : Nat := 1024

structure Disk where
  index : Lsm.Disk := {}
  tuples : List Block := []
  journal : Option Bytes := none

abbrev DiskEngine := StorageEngine DiskBlockStore (LruK (Fin HEAP_FRAMES)) HEAP_FRAMES

def DiskEngine.disk (e : DiskEngine) : Disk where
  index := e.index.disk
  tuples := e.heap.cache.block.file
  journal := e.heap.cache.journal.map (·.file)

/-- `new` and `with_levels`: the index, then the heap. -/
def DiskEngine.open (crc32 hash : Bytes → UInt32) (disk : Disk) (config : LsmConfig)
    (mem : BTreeMemtable) : Except Fault DiskEngine := do
  let index ← (Lsm.withMemtable crc32 disk.index config mem).mapError (fun e => .error (.ofLsm e))
  let heap ← (Heap.open hash HEAP_FRAMES disk.tuples disk.journal).mapError .ofHeap
  return ⟨index, heap⟩

end StrataDb.Store
