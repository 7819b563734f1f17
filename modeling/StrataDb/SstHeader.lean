import StrataDb.Entry

/-!
# SSTable headers and bloom filters (`crates/lsm/src/storage/header.rs`, `bloom.rs`)

A *root* has the key range, the bloom filter and the block index, a *child* one slice of a sharded
index. The filter is a parameter (`FastBloom`) with what its documentation promises: an inserted
key is found, also after the filter was rebuilt from its bit blocks.
-/

namespace StrataDb.Lsm

open ByteCodec Codec
open Decoder (reads_count reads_u16 reads_u32 reads_u64 reads_u8)
open Decoder.Reads (bind_pure)

/-! ### Bloom filters -/

structure FastBloom where
  Filter : Type
  withNumBits : (bits expectedItems : Nat) → Filter
  insert : Filter → Bytes → Filter
  contains : Filter → Bytes → Bool
  asSlice : Filter → List UInt64
  numHashes : Filter → UInt32
  fromVec : List UInt64 → UInt32 → Filter
  contains_insert_self : ∀ f k, contains (insert f k) k = true
  contains_insert : ∀ f k k', contains f k = true → contains (insert f k') k = true
  contains_reload : ∀ f k, contains f k = true →
    contains (fromVec (asSlice f) (numHashes f)) k = true

def FastBloom.full : FastBloom where
  Filter := Unit
  withNumBits _ _ := ()
  insert f _ := f
  contains _ _ := true
  asSlice _ := []
  numHashes _ := 0
  fromVec _ _ := ()
  contains_insert_self _ _ := rfl
  contains_insert _ _ _ h := h
  contains_reload _ _ h := h

structure BloomConfig where
  bitsPerKey : UInt32 := 10
deriving DecidableEq, Repr

namespace FastBloom

variable (B : FastBloom)

/-- `BloomFilter::build`: `usize` multiplication saturates, and a filter has at least
    one bit. -/
def build (config : BloomConfig) (nKeys : Nat) (keys : List Bytes) : B.Filter :=
  let bits := max (min (config.bitsPerKey.toNat * nKeys) (2 ^ 64 - 1)) 1
  keys.foldl B.insert (B.withNumBits bits (max nKeys 1))

def reload (f : B.Filter) : B.Filter := B.fromVec (B.asSlice f) (B.numHashes f)

theorem contains_foldl_insert {f : B.Filter} {k : Bytes} {keys : List Bytes}
    (h : B.contains f k = true ∨ k ∈ keys) : B.contains (keys.foldl B.insert f) k = true := by
  induction keys generalizing f with
  | nil => simpa using h
  | cons x keys ih =>
    apply ih
    rcases h with h | h
    · exact Or.inl (B.contains_insert f k x h)
    · rcases List.mem_cons.mp h with rfl | h
      · exact Or.inl (B.contains_insert_self f k)
      · exact Or.inr h

theorem contains_reload_build (config : BloomConfig) (nKeys : Nat) {keys : List Bytes} {k : Bytes}
    (h : k ∈ keys) : B.contains (B.reload (B.build config nKeys keys)) k = true :=
  B.contains_reload _ _ (B.contains_foldl_insert (Or.inr h))

end FastBloom

/-! ### Headers -/

abbrev SsTableId := UInt64

/-- A key span and where the bytes it covers sit in the file: a data block, or a
    child header (`ChunkRef`). -/
structure BlockMeta where
  minKey : Bytes
  maxKey : Bytes
  offset : UInt64
  len : UInt32
deriving DecidableEq, Repr

/-- A root's block index: small tables keep it inline, large ones shard it. -/
inductive Index where
  | inline (blocks : List BlockMeta)
  | sharded (chunks : List BlockMeta)
deriving DecidableEq, Repr

inductive Header (B : FastBloom) where
  | root (sstId : SsTableId) (range : KeyRange) (bloom : B.Filter) (sizeBytes : UInt64)
      (index : Index)
  | child (sstId : SsTableId) (blocks : List BlockMeta)

def MAGIC : UInt32 := 0x53535431
def VERSION : UInt16 := 2
def ROLE_ROOT : UInt8 := 0
def ROLE_CHILD : UInt8 := 1
def INDEX_INLINE : UInt8 := 0
def INDEX_SHARDED : UInt8 := 1

def BlockMeta.encode (m : BlockMeta) : Bytes :=
  putBytes m.minKey ++ (putBytes m.maxKey ++ (beBytes 8 m.offset.toNat ++ beBytes 4 m.len.toNat))

def putMetas (metas : List BlockMeta) : Bytes :=
  beBytes 4 metas.length ++ metas.flatMap BlockMeta.encode

def getMeta : Decode BlockMeta := do
  let minKey ← getBytes
  let maxKey ← getBytes
  let offset ← getU64
  let len ← getU32
  pure { minKey, maxKey, offset, len }

def getMetas : Decode (List BlockMeta) := do
  let count ← getU32
  Decoder.times count.toNat getMeta

def Index.encode : Index → Bytes
  | .inline blocks => [INDEX_INLINE] ++ putMetas blocks
  | .sharded chunks => [INDEX_SHARDED] ++ putMetas chunks

def Index.decode : Decode Index := do
  let tag ← getU8
  if tag = INDEX_INLINE then do
    let blocks ← getMetas
    pure (.inline blocks)
  else if tag = INDEX_SHARDED then do
    let chunks ← getMetas
    pure (.sharded chunks)
  else Decoder.fail (.unknownOpType tag)

section Headers

variable (B : FastBloom)

def encodeBloom (f : B.Filter) : Bytes :=
  beBytes 4 (B.numHashes f).toNat ++
    (beBytes 4 (B.asSlice f).length ++ (B.asSlice f).flatMap (fun b => beBytes 8 b.toNat))

def decodeBloom : Decode B.Filter := do
  let numHashes ← getU32
  let count ← getU32
  let blocks ← Decoder.times count.toNat getU64
  pure (B.fromVec blocks numHashes)

def Header.encode : Header B → Bytes
  | .root sstId range bloom sizeBytes index =>
    beBytes 4 MAGIC.toNat ++ (beBytes 2 VERSION.toNat ++ ([ROLE_ROOT] ++ (beBytes 8 sstId.toNat ++
      (putBytes range.min ++ (putBytes range.max ++ (beBytes 8 sizeBytes.toNat ++
        (encodeBloom B bloom ++ index.encode)))))))
  | .child sstId blocks =>
    beBytes 4 MAGIC.toNat ++ (beBytes 2 VERSION.toNat ++ ([ROLE_CHILD] ++ (beBytes 8 sstId.toNat ++
      putMetas blocks)))

def Header.decode : Decode (Header B) := do
  let magic ← getU32
  if magic ≠ MAGIC then Decoder.fail (.badMagic MAGIC magic) else do
    let version ← getU16
    if version ≠ VERSION then Decoder.fail (.unsupportedVersion version) else do
      let role ← getU8
      let sstId ← getU64
      if role = ROLE_ROOT then do
        let min ← getBytes
        let max ← getBytes
        let sizeBytes ← getU64
        let bloom ← decodeBloom B
        let index ← Index.decode
        pure (.root sstId { min, max } bloom sizeBytes index)
      else if role = ROLE_CHILD then do
        let blocks ← getMetas
        pure (.child sstId blocks)
      else Decoder.fail (.unknownOpType role)

/-! ### Reading headers back

Every length and count sits in a four-byte field.  Since the fields count bytes of
the header itself, they all fit as soon as the header is shorter than 4 GiB. -/

def BlockMeta.Fits (m : BlockMeta) : Prop :=
  m.minKey.length < 2 ^ 32 ∧ m.maxKey.length < 2 ^ 32

def MetasFit (metas : List BlockMeta) : Prop :=
  metas.length < 2 ^ 32 ∧ ∀ m ∈ metas, m.Fits

def Index.metas : Index → List BlockMeta
  | .inline blocks => blocks
  | .sharded chunks => chunks

def Header.Fits : Header B → Prop
  | .root _ range bloom _ index =>
    range.min.length < 2 ^ 32 ∧ range.max.length < 2 ^ 32 ∧ (B.asSlice bloom).length < 2 ^ 32 ∧
      MetasFit index.metas
  | .child _ blocks => MetasFit blocks

def Header.reloaded : Header B → Header B
  | .root sstId range bloom sizeBytes index => .root sstId range (B.reload bloom) sizeBytes index
  | .child sstId blocks => .child sstId blocks

variable {B}

theorem length_metaEncode (m : BlockMeta) :
    m.encode.length = 4 + m.minKey.length + 4 + m.maxKey.length + 8 + 4 := by
  simp [BlockMeta.encode]
  omega

theorem metasFit_of_length {metas : List BlockMeta} (h : (putMetas metas).length < 2 ^ 32) :
    MetasFit metas := by
  simp only [putMetas, List.length_append, length_beBytes] at h
  constructor
  · have hcount : metas.length ≤ (metas.flatMap BlockMeta.encode).length := by
      apply count_le_length_flatMap
      intro m _
      rw [← List.length_pos_iff, length_metaEncode]
      omega
    omega
  · intro m hm
    have hlen := length_le_flatMap_of_mem BlockMeta.encode hm
    rw [length_metaEncode] at hlen
    constructor <;> omega

theorem Header.fits_of_length {header : Header B} (h : (header.encode B).length < 2 ^ 32) :
    header.Fits B := by
  cases header with
  | root sstId range bloom sizeBytes index =>
    simp only [Header.encode, encodeBloom, List.length_append, length_putBytes, length_beBytes] at h
    have hblocks : (B.asSlice bloom).length ≤
        ((B.asSlice bloom).flatMap (fun b => beBytes 8 b.toNat)).length := by
      apply count_le_length_flatMap
      intro b _
      rw [← List.length_pos_iff, length_beBytes]
      omega
    refine ⟨by omega, by omega, by omega, ?_⟩
    cases index with
    | inline blocks =>
      simp only [Index.encode, List.length_append] at h
      show MetasFit blocks
      exact metasFit_of_length (by omega)
    | sharded chunks =>
      simp only [Index.encode, List.length_append] at h
      show MetasFit chunks
      exact metasFit_of_length (by omega)
  | child sstId blocks =>
    simp only [Header.encode, List.length_append] at h
    exact metasFit_of_length (by omega)

theorem reads_getMeta {m : BlockMeta} (h : m.Fits) : getMeta.Reads m.encode m := by
  refine Decoder.Reads.bind (reads_putBytes h.1) ?_
  refine Decoder.Reads.bind (reads_putBytes h.2) ?_
  exact Decoder.Reads.bind (reads_u64 _ _)
    (bind_pure (reads_u32 _ _))

theorem reads_getMetas {metas : List BlockMeta} (h : MetasFit metas) :
    getMetas.Reads (putMetas metas) metas := by
  refine Decoder.Reads.bind (reads_count _ h.1) ?_
  rw [UInt32.toNat_ofNat_of_lt' h.1]
  exact Decoder.Reads.times (fun m hm => reads_getMeta (h.2 m hm))

theorem reads_index {index : Index} (h : MetasFit index.metas) :
    Index.decode.Reads index.encode index := by
  cases index with
  | inline blocks =>
    exact Decoder.Reads.bind (reads_u8 _ _) (bind_pure (reads_getMetas h))
  | sharded chunks =>
    exact Decoder.Reads.bind (reads_u8 _ _) (bind_pure (reads_getMetas h))

theorem reads_bloom {f : B.Filter} (h : (B.asSlice f).length < 2 ^ 32) :
    (decodeBloom B).Reads (encodeBloom B f) (B.reload f) := by
  refine Decoder.Reads.bind (reads_u32 _ _) ?_
  refine Decoder.Reads.bind (reads_count _ h) ?_
  rw [UInt32.toNat_ofNat_of_lt' h]
  exact bind_pure (Decoder.Reads.times (fun b _ => reads_u64 _ b))

/-- **Headers round-trip.**  A header whose fields fit is read back from its bytes,
    with the filter rebuilt from its blocks. -/
theorem Header.reads_encode {header : Header B} (h : header.Fits B) :
    (Header.decode B).Reads (header.encode B) (header.reloaded B) := by
  cases header with
  | root sstId range bloom sizeBytes index =>
    obtain ⟨hmin, hmax, hbloom, hindex⟩ := h
    refine Decoder.Reads.bind (reads_u32 _ MAGIC) ?_
    refine Decoder.Reads.bind (reads_u16 _ VERSION) ?_
    refine Decoder.Reads.bind (reads_u8 _ _) ?_
    refine Decoder.Reads.bind (reads_u64 _ _) ?_
    refine Decoder.Reads.bind (reads_putBytes hmin) ?_
    refine Decoder.Reads.bind (reads_putBytes hmax) ?_
    refine Decoder.Reads.bind (reads_u64 _ _) ?_
    exact Decoder.Reads.bind (reads_bloom hbloom) (bind_pure (reads_index hindex))
  | child sstId blocks =>
    refine Decoder.Reads.bind (reads_u32 _ MAGIC) ?_
    refine Decoder.Reads.bind (reads_u16 _ VERSION) ?_
    refine Decoder.Reads.bind (reads_u8 _ _) ?_
    exact Decoder.Reads.bind (reads_u64 _ _) (bind_pure (reads_getMetas h))

end Headers

end StrataDb.Lsm
