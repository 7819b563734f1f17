import StrataDb.BlockJournal
import StrataDb.BlockStore
import StrataDb.EvictionPolicy

/-!
# The page cache (`crates/filesystem/src/cache/mod.rs`)

A pool of `n` frames over a block store, an eviction policy and perhaps a redo journal. A call
that fails may have changed the cache on the way, so every operation returns its outcome together
with the cache after it. The free list is a stack with its top in front.
-/

namespace StrataDb.Filesystem

open ByteCodec BlockStore

structure Frame where
  pageId : Option Nat := none
  buf : Block := Block.zeroed
  readers : Nat := 0
  writer : Bool := false
  dirty : Bool := false

def Frame.unpinned (fr : Frame) : Bool := fr.readers == 0 && !fr.writer

structure Inner (V P : Type) (n : Nat) where
  block : V
  frames : Fin n → Frame
  table : Nat → Option (Fin n)
  free : List (Fin n)
  policy : P
  journal : Option Journal

namespace Inner

variable {V P : Type} {n : Nat}

def build (block : V) (policy : P) (journal : Option Journal) : Inner V P n where
  block := block
  frames _ := {}
  table _ := none
  free := List.finRange n
  policy := policy
  journal := journal

def modify (c : Inner V P n) (f : Fin n) (change : Frame → Frame) : Inner V P n :=
  { c with frames := Function.update c.frames f (change (c.frames f)) }

section Modify

variable (c : Inner V P n) (f : Fin n) (change : Frame → Frame)

@[simp] theorem modify_block : (c.modify f change).block = c.block := rfl
@[simp] theorem modify_table : (c.modify f change).table = c.table := rfl
@[simp] theorem modify_free : (c.modify f change).free = c.free := rfl
@[simp] theorem modify_policy : (c.modify f change).policy = c.policy := rfl
@[simp] theorem modify_journal : (c.modify f change).journal = c.journal := rfl

theorem modify_frames (g : Fin n) :
    (c.modify f change).frames g = if g = f then change (c.frames f) else c.frames g := by
  simp [modify, Function.update_apply]

theorem modify_field {α : Type} (field : Frame → α) {c : Inner V P n} {f : Fin n}
    {change : Frame → Frame} (h : field (change (c.frames f)) = field (c.frames f)) (g : Fin n) :
    field ((c.modify f change).frames g) = field (c.frames g) := by
  rw [modify_frames]
  split_ifs with hg
  · rw [hg, h]
  · rfl

@[simp] theorem modify_frames_self : (c.modify f change).frames f = change (c.frames f) := by
  simp [modify]

end Modify

variable [BlockStore V] [EvictionPolicy P (Fin n)] (crc : Crc32c) (hash : Bytes → UInt32)

/-! ### Flushing -/

def dirtyFrames (c : Inner V P n) : List (Fin n × Nat) :=
  (List.finRange n).filterMap (fun f =>
    if (c.frames f).dirty then (c.frames f).pageId.map (fun id => (f, id)) else none)

def finalizeFrames (c : Inner V P n) (dirty : List (Fin n × Nat)) : Inner V P n :=
  dirty.foldl (fun c d => c.modify d.1 (fun fr => { fr with buf := finalizeChecksum crc fr.buf })) c

def records (c : Inner V P n) (dirty : List (Fin n × Nat)) : List JournalOp :=
  dirty.map (fun d => .write d.2 (c.frames d.1).buf.bytes) ++ [.commit]

/-- The first half of a flush: set the checksums, so that what is logged is what will be
    written, and append the records to the journal, if there is one. -/
def commit (c : Inner V P n) (dirty : List (Fin n × Nat)) : Inner V P n :=
  { c.finalizeFrames crc dirty with
    journal := c.journal.map (fun j =>
      ((c.finalizeFrames crc dirty).records dirty).foldl (Journal.append hash pageOpCodec) j) }

def writeBack : List (Fin n × Nat) → Inner V P n → Except FsError Unit × Inner V P n
  | [], c => (.ok (), c)
  | (f, id) :: dirty, c =>
    match write c.block id (c.frames f).buf with
    | .error e => (.error e, c)
    | .ok block =>
      writeBack dirty ({ c with block := block }.modify f (fun fr => { fr with dirty := false }))

/-- `flush`: log the images of the dirty frames and the commit marker, write the pages,
    sync, and discard the log. -/
def flush (c : Inner V P n) : Except FsError Unit × Inner V P n :=
  if c.dirtyFrames.isEmpty then (.ok (), c)
  else
    match writeBack c.dirtyFrames (c.commit crc hash c.dirtyFrames) with
    | (.error e, c) => (.error e, c)
    | (.ok (), c) =>
      match sync c.block with
      | .error e => (.error e, c)
      | .ok block => (.ok (), { c with block := block, journal := c.journal.map Journal.truncate })

/-! ### Frames for pages -/

/-- The policy's victim among the unpinned frames, or the clean ones of them. -/
def pickEvictable (c : Inner V P n) (cleanOnly : Bool) : Option (Fin n) × Inner V P n :=
  let pick := evictCandidate c.policy (fun f =>
    (c.frames f).unpinned && (!cleanOnly || !(c.frames f).dirty))
  (pick.1, { c with policy := pick.2 })

def reclaim (c : Inner V P n) (f : Fin n) : Inner V P n :=
  { c with
    table := match (c.frames f).pageId with
      | some old => Function.update c.table old none
      | none => c.table
    policy := remove c.policy f }.modify f
      (fun fr => { fr with pageId := none, readers := 0, writer := false, dirty := false })

/-- `victim_frame`: a free frame, else a clean unpinned one, else any unpinned one after
    a flush. -/
def victimFrame (c : Inner V P n) : Except FsError (Fin n) × Inner V P n :=
  match c.free with
  | f :: rest => (.ok f, { c with free := rest })
  | [] =>
    match c.pickEvictable true with
    | (some f, c) => (.ok f, c.reclaim f)
    | (none, c) =>
      if (List.finRange n).any (fun f => (c.frames f).unpinned && (c.frames f).dirty) then
        match c.flush crc hash with
        | (.error e, c) => (.error e, c)
        | (.ok (), c) =>
          match c.pickEvictable false with
          | (some f, c) => (.ok f, c.reclaim f)
          | (none, c) => (.error (.poolExhausted n), c)
      else (.error (.poolExhausted n), c)

def load (c : Inner V P n) (f : Fin n) (id : Nat) : Except FsError Unit × Inner V P n :=
  match read c.block id with
  | .error e => (.error e, c)
  | .ok b => (verifyChecksum crc b id, c.modify f (fun fr => { fr with buf := b }))

/-- Put a page into a frame: the end of `acquire_read`, `acquire_write` and `allocate`. -/
def enter (c : Inner V P n) (f : Fin n) (id : Nat) (change : Frame → Frame) : Inner V P n :=
  { c with
    table := Function.update c.table id (some f)
    policy := recordAccess c.policy f }.modify f (fun fr => change { fr with pageId := some id })

/-- The miss of `acquire_read` and `acquire_write`: find a frame, load the page, pin it. -/
def fetch (c : Inner V P n) (id : Nat) (pin : Frame → Frame) :
    Except FsError (Fin n) × Inner V P n :=
  match c.victimFrame crc hash with
  | (.error e, c) => (.error e, c)
  | (.ok f, c) =>
    match c.load crc f id with
    | (.error e, c) => (.error e, { c with free := f :: c.free })
    | (.ok (), c) => (.ok f, c.enter f id pin)

def acquireRead (c : Inner V P n) (id : Nat) : Except FsError (Fin n) × Inner V P n :=
  match c.table id with
  | some f =>
    if (c.frames f).writer then (.error (.busy id), c)
    else
      (.ok f, { c with policy := recordAccess c.policy f }.modify f
        (fun fr => { fr with readers := fr.readers + 1 }))
  | none => c.fetch crc hash id (fun fr => { fr with readers := 1 })

def acquireWrite (c : Inner V P n) (id : Nat) : Except FsError (Fin n) × Inner V P n :=
  match c.table id with
  | some f =>
    if (c.frames f).writer || decide (0 < (c.frames f).readers) then (.error (.busy id), c)
    else
      (.ok f, { c with policy := recordAccess c.policy f }.modify f
        (fun fr => { fr with writer := true }))
  | none => c.fetch crc hash id (fun fr => { fr with writer := true })

def allocate (c : Inner V P n) : Except FsError (Nat × Fin n) × Inner V P n :=
  match BlockStore.allocate c.block with
  | .error e => (.error e, c)
  | .ok (id, block) =>
    match { c with block := block }.victimFrame crc hash with
    | (.error e, c) => (.error e, c)
    | (.ok f, c) =>
      (.ok (id, f), c.enter f id
        (fun fr => { fr with buf := Block.zeroed, writer := true, dirty := true }))

def releaseRead (c : Inner V P n) (f : Fin n) : Inner V P n :=
  c.modify f (fun fr => { fr with readers := fr.readers - 1 })

def releaseWrite (c : Inner V P n) (f : Fin n) : Inner V P n :=
  c.modify f (fun fr => { fr with writer := false, dirty := true })

end Inner

end StrataDb.Filesystem
