import StrataDb.Journal
import StrataDb.OrderedMap
import StrataDb.SstHeader

/-!
# SSTable files (`crates/lsm/src/storage/sstable.rs`, `cache.rs`, `page.rs`)

```text
| block 0 | (pad) | block 1 | ... | child 0 | child 1 | ... | root | root_len (4B) |
```

The block index is inline in the root header or, past `blocks_per_chunk` blocks, in child headers.
Pages are read through a cache that may hold any of them.
-/

namespace StrataDb.Lsm

open ByteCodec Codec OrderedMap
open Journal (IoError)

/-! ### Errors -/

inductive WriteError where
  | storeFull
  | invalidArgument (msg : String)
  | internal (msg : String)
deriving DecidableEq, Repr

inductive ReadError where
  | internal (msg : String)
deriving DecidableEq, Repr

inductive LsmError where
  | write (e : WriteError)
  | exhausted (msg : String)
  | internal (msg : String)
deriving DecidableEq, Repr

def WriteError.text : WriteError → String
  | .storeFull => "store is full"
  | .invalidArgument msg => "invalid argument: " ++ msg
  | .internal msg => "internal error: " ++ msg

def LsmError.text : LsmError → String
  | .write e => e.text
  | .exhausted msg => "lsm exhausted: " ++ msg
  | .internal msg => "internal error: " ++ msg

def LsmError.ofIo (e : IoError) : LsmError := .internal e.text
def LsmError.ofDecode (e : DecodeError) : LsmError := .internal e.text

def LsmError.ofWrite : WriteError → LsmError
  | .internal msg => .internal msg
  | e => .write e

/-- How a call ends that does not return a value: an error, or a panic of the
    standard library (arithmetic overflow, an oversized buffer, a reversed range). -/
inductive Fault where
  | error (e : LsmError)
  | panicked (msg : String)
deriving DecidableEq, Repr

structure PageConfig where
  pageSizeBytes : Nat := 4096
  blocksPerChunk : Nat := 256
deriving DecidableEq, Repr

structure TableConfig where
  bloom : BloomConfig := {}
  page : PageConfig := {}
deriving DecidableEq, Repr

/-! ### Writing a table -/

/-- The inner loop of `build`: entries go into the block while it stays within
    `target`; the first one always does. -/
def packBlock (target : Nat) : Nat → List KeyValue → List KeyValue × List KeyValue
  | _, [] => ([], [])
  | blockSize, e :: es =>
    if 0 < blockSize ∧ target < blockSize + entrySize e then ([], e :: es)
    else
      let (block, rest) := packBlock target (blockSize + entrySize e) es
      (e :: block, rest)

/-- The outer loop of `build`: which entries share a block.  Every block takes at
    least one entry, so the number of entries is enough fuel. -/
def packBlocks (target : Nat) : Nat → List KeyValue → List (List KeyValue)
  | 0, _ => []
  | _ + 1, [] => []
  | fuel + 1, e :: es =>
    let (block, rest) := packBlock target 0 (e :: es)
    block :: packBlocks target fuel rest

def firstKey (block : List KeyValue) : Bytes := (block.head?.map (·.key.userKey)).getD []
def lastKey (block : List KeyValue) : Bytes := (block.getLast?.map (·.key.userKey)).getD []

def padTo (target : Nat) (data : Bytes) : Bytes :=
  if data.length % target ≠ 0 then data ++ List.replicate (target - data.length % target) 0
  else data

/-- What the outer loop writes: each block at the end of the data so far, its span
    and place recorded before the padding. -/
def layoutBlocks (target : Nat) : Bytes → List (List KeyValue) → Bytes × List BlockMeta
  | data, [] => (data, [])
  | data, block :: blocks =>
    let data' := data ++ encodeBlock block
    let (data'', metas) := layoutBlocks target (padTo target data') blocks
    (data'', { minKey := firstKey block, maxKey := lastKey block, offset := UInt64.ofNat data.length
               len := UInt32.ofNat (data'.length - data.length) } :: metas)

def chunks {α : Type} (n : Nat) : Nat → List α → List (List α)
  | 0, _ => []
  | _ + 1, [] => []
  | fuel + 1, a :: as => (a :: as).take n :: chunks n fuel ((a :: as).drop n)

section Tables

variable (B : FastBloom)

structure Built where
  buf : Bytes
  blocks : List BlockMeta
  bloom : B.Filter
  range : KeyRange
  sizeBytes : UInt64

def blocksOf (config : TableConfig) (entries : List KeyValue) : List (List KeyValue) :=
  packBlocks (max config.page.pageSizeBytes 1) entries.length entries

def build (config : TableConfig) (entries : List KeyValue) : Built B :=
  let (data, blocks) := layoutBlocks (max config.page.pageSizeBytes 1) [] (blocksOf config entries)
  { buf := data
    blocks
    bloom := B.build config.bloom entries.length (entries.map (·.key.userKey))
    range :=
      match blocks.head?, blocks.getLast? with
      | some first, some last => { min := first.minKey, max := last.maxKey }
      | _, _ => { min := [], max := [] }
    sizeBytes := UInt64.ofNat data.length }

def appendShards (sstId : SsTableId) : Bytes → List (List BlockMeta) → Bytes × List BlockMeta
  | buf, [] => (buf, [])
  | buf, slice :: slices =>
    let bytes := (Header.child sstId slice : Header B).encode
    let (buf', refs) := appendShards sstId (buf ++ bytes) slices
    (buf', { minKey := (slice.head?.map (·.minKey)).getD []
             maxKey := (slice.getLast?.map (·.maxKey)).getD []
             offset := UInt64.ofNat buf.length, len := UInt32.ofNat bytes.length } :: refs)

def slicesOf (config : TableConfig) (blocks : List BlockMeta) : List (List BlockMeta) :=
  chunks (max config.page.blocksPerChunk 1) blocks.length blocks

def indexOf (sstId : SsTableId) (config : TableConfig) (built : Built B) : Bytes × Index :=
  if built.blocks.length ≤ max config.page.blocksPerChunk 1 then
    (built.buf, .inline built.blocks)
  else
    let (buf, refs) := appendShards B sstId built.buf (slicesOf config built.blocks)
    (buf, .sharded refs)

def rootOf (sstId : SsTableId) (config : TableConfig) (entries : List KeyValue) : Header B :=
  let built := build B config entries
  .root sstId built.range built.bloom built.sizeBytes (indexOf B sstId config built).2

def tableBytes (sstId : SsTableId) (config : TableConfig) (entries : List KeyValue) : Bytes :=
  let root := (rootOf B sstId config entries).encode
  (indexOf B sstId config (build B config entries)).1 ++ (root ++ beBytes 4 root.length)

abbrev SstDir := SsTableId → Option Bytes

def ISIZE_MAX : Nat := 2 ^ 63 - 1

/-- `SsTable::write`: the file is assembled in one buffer, which cannot outgrow
    `isize::MAX`, and replaces whatever stood under its name. -/
def SstDir.write (dir : SstDir) (sstId : SsTableId) (config : TableConfig)
    (entries : List KeyValue) : Except Fault SstDir :=
  let bytes := tableBytes B sstId config entries
  if ISIZE_MAX < bytes.length then .error (.panicked "capacity overflow")
  else .ok (Function.update dir sstId (some bytes))

/-! ### Reading a table -/

inductive HeaderId where
  | root (table : SsTableId)
  | child (table : SsTableId) (offset : UInt64)
deriving DecidableEq, Repr

structure PageId where
  table : SsTableId
  offset : UInt64
deriving DecidableEq, Repr

/-- `SstPageCache` as reads see it: the pages it holds at the moment.  Which of the
    loaded pages stay is the eviction policy's choice. -/
structure SstPageCache where
  headers : HeaderId → Option Bytes
  blocks : PageId → Option Bytes

def SstPageCache.empty : SstPageCache := ⟨fun _ => none, fun _ => none⟩

def SstPageCache.fetchHeader (cache : SstPageCache) (id : HeaderId)
    (load : Except IoError Bytes) : Except IoError Bytes :=
  match cache.headers id with
  | some page => .ok page
  | none => load

def SstPageCache.fetchBlock (cache : SstPageCache) (id : PageId)
    (load : Except IoError Bytes) : Except IoError Bytes :=
  match cache.blocks id with
  | some page => .ok page
  | none => load

def readHeaderPage : Option Bytes → Except IoError Bytes
  | none => .error .notFound
  | some file =>
    if file.length < 4 then .error (.invalidData "sstable file too small")
    else
      let headerLen := beNat (file.drop (file.length - 4))
      if file.length < headerLen + 4 then .error (.invalidData "header_len exceeds file size")
      else .ok ((file.drop (file.length - (4 + headerLen))).take headerLen)

def readRange (file : Option Bytes) (offset : UInt64) (len : UInt32) : Except IoError Bytes :=
  match file with
  | none => .error .notFound
  | some file =>
    let bytes := (file.drop offset.toNat).take len.toNat
    if bytes.length < len.toNat then .error .unexpectedEof else .ok bytes

structure SsTable where
  sstId : SsTableId
  range : KeyRange
  bloom : B.Filter
  sizeBytes : UInt64
  index : Index

variable (cache : SstPageCache) (dir : SstDir)

def decodeHeader (page : Bytes) : Except DecodeError (Header B) :=
  match Header.decode B page with
  | .ok (header, _) => .ok header
  | .error e => .error e

def SsTable.open (sstId : SsTableId) : Except LsmError (SsTable B) := do
  let page ← (cache.fetchHeader (.root sstId) (readHeaderPage (dir sstId))).mapError LsmError.ofIo
  match ← (decodeHeader B page).mapError LsmError.ofDecode with
  | .root sstId range bloom sizeBytes index => .ok { sstId, range, bloom, sizeBytes, index }
  | .child _ _ => .error (.internal "sstable tail is not a root header")

variable {B}

/-- The first block or shard whose `[min, max]` covers the key. -/
def covering (metas : List BlockMeta) (key : Bytes) : Option BlockMeta :=
  metas.find? (fun m => decide (m.minKey ≤ key) && decide (key ≤ m.maxKey))

def SsTable.loadChild (table : SsTable B) (cref : BlockMeta) :
    Except LsmError (List BlockMeta) := do
  let page ← (cache.fetchHeader (.child table.sstId cref.offset)
    (readRange (dir table.sstId) cref.offset cref.len)).mapError LsmError.ofIo
  match ← (decodeHeader B page).mapError LsmError.ofDecode with
  | .child _ blocks => .ok blocks
  | .root .. => .error (.internal "expected child header, got root")

def SsTable.locateBlock (table : SsTable B) (key : Bytes) : Except LsmError (Option BlockMeta) :=
  match table.index with
  | .inline blocks => .ok (covering blocks key)
  | .sharded refs =>
    match covering refs key with
    | none => .ok none
    | some cref => do
      let blocks ← table.loadChild cache dir cref
      .ok (covering blocks key)

def SsTable.loadBlock (table : SsTable B) (block : BlockMeta) :
    Except LsmError (List KeyValue) := do
  let page ← (cache.fetchBlock ⟨table.sstId, block.offset⟩
    (readRange (dir table.sstId) block.offset block.len)).mapError LsmError.ofIo
  (decodeBlock page).mapError LsmError.ofDecode

/-- `SsTable::get`: out of range or not in the filter means absent; else the first
    visible version in the one block the index points to. -/
def SsTable.get (table : SsTable B) (key : Bytes) (maxSeq : UInt64) :
    Except LsmError (Option KeyValue) :=
  if !table.range.contains key || !B.contains table.bloom key then .ok none
  else do
    match ← table.locateBlock cache dir key with
    | none => .ok none
    | some block =>
      let entries ← table.loadBlock cache dir block
      .ok (entries.find? (fun kv => decide (kv.key.userKey = key) && decide (kv.key.seq ≤ maxSeq)))

def blockOverlaps (b : BlockMeta) (start stop : Bound Bytes) : Bool :=
  let entirelyBelow := match start with
    | .included s => decide (b.maxKey < s)
    | .excluded s => decide (b.maxKey ≤ s)
    | .unbounded => false
  let entirelyAbove := match stop with
    | .included e => decide (e < b.minKey)
    | .excluded e => decide (e ≤ b.minKey)
    | .unbounded => false
  !(entirelyBelow || entirelyAbove)

def LsmError.toRead : LsmError → ReadError
  | .internal msg => .internal msg
  | e => .internal e.text

def SsTable.loadEntries (table : SsTable B) (start stop : Bound Bytes) (maxSeq : UInt64)
    (block : BlockMeta) : Except ReadError (List KeyValue) := do
  let entries ← (table.loadBlock cache dir block).mapError LsmError.toRead
  .ok (entries.filter (fun kv => decide (kv.key.seq ≤ maxSeq) &&
    inBounds start stop kv.key.userKey))

/-- What the block cursor runs through: the entries of each overlapping block in
    turn, shard by shard, or the error of a shard that cannot be read. -/
def SsTable.pulls (table : SsTable B) (start stop : Bound Bytes) (maxSeq : UInt64) :
    List (Except ReadError (List KeyValue)) :=
  let blockPulls := fun blocks : List BlockMeta =>
    (blocks.filter (blockOverlaps · start stop)).map (table.loadEntries cache dir start stop maxSeq)
  match table.index with
  | .inline blocks => blockPulls blocks
  | .sharded refs =>
    (refs.filter (blockOverlaps · start stop)).flatMap fun cref =>
      match (table.loadChild cache dir cref).mapError LsmError.toRead with
      | .error e => [.error e]
      | .ok blocks => blockPulls blocks

def drain : List (Except ReadError (List KeyValue)) → List (Except ReadError KeyValue)
  | [] => []
  | .error e :: _ => [.error e]
  | .ok entries :: rest => entries.map .ok ++ drain rest

def SsTable.scan (table : SsTable B) (start stop : Bound Bytes) (maxSeq : UInt64) :
    List (Except ReadError KeyValue) :=
  drain (table.pulls cache dir start stop maxSeq)

end Tables

end StrataDb.Lsm
