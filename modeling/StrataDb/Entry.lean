import StrataDb.Codec
import Mathlib.Data.Prod.Lex

/-!
# Keys, entries and their bytes (`crates/lsm/src/key.rs`, `storage/data.rs`)

Entries are ordered by user key ascending and sequence number *descending*, so the newest version
of a key comes first; `InternalKey.rank` is that order as one element of a linear order.
-/

namespace StrataDb.Lsm

open ByteCodec Codec

/-! ### Keys -/

inductive OpType where
  | put
  | delete
deriving DecidableEq, Repr

/-- A key and the number of the write. -/
structure InternalKey where
  userKey : Bytes
  seq : UInt64
  op : OpType
deriving DecidableEq, Repr

/-- A version of a key. -/
structure KeyValue where
  key : InternalKey
  value : Bytes
deriving DecidableEq, Repr

abbrev Rank := Bytes ×ₗ UInt64ᵒᵈ

/-- `Ord for InternalKey`. -/
def InternalKey.rank (k : InternalKey) : Rank := toLex (k.userKey, OrderDual.toDual k.seq)

/-- `Ord for InternalKey`: the operation does not take part. -/
instance : Ord InternalKey where
  compare a b :=
    (compareOfLessAndEq a.userKey b.userKey).then (compareOfLessAndEq b.seq a.seq)

theorem InternalKey.rank_lt_rank {a b : InternalKey} :
    a.rank < b.rank ↔ a.userKey < b.userKey ∨ a.userKey = b.userKey ∧ b.seq < a.seq := by
  simp [InternalKey.rank, Prod.Lex.toLex_lt_toLex]

theorem InternalKey.rank_eq_rank {a b : InternalKey} :
    a.rank = b.rank ↔ a.userKey = b.userKey ∧ a.seq = b.seq := by
  simp [InternalKey.rank]

theorem InternalKey.compare_eq_lt_iff {a b : InternalKey} :
    compare a b = .lt ↔ a.rank < b.rank := by
  show (compareOfLessAndEq a.userKey b.userKey).then (compareOfLessAndEq b.seq a.seq) = .lt ↔ _
  rw [InternalKey.rank_lt_rank, Ordering.then_eq_lt, compareOfLessAndEq_eq_lt,
    compareOfLessAndEq_eq_lt]
  by_cases heq : a.userKey = b.userKey
  · simp [compareOfLessAndEq, heq]
  · simp only [compareOfLessAndEq, heq, if_false, false_and, or_false]
    split <;> simp_all

/-- A range with both ends in it. -/
structure KeyRange where
  min : Bytes
  max : Bytes
deriving DecidableEq, Repr

def KeyRange.contains (r : KeyRange) (key : Bytes) : Bool :=
  decide (r.min ≤ key) && decide (key ≤ r.max)

/-! ### Entries as bytes -/

def OP_PUT : UInt8 := 1
def OP_DELETE : UInt8 := 2

/-- The byte of an operation. -/
def OpType.tag : OpType → UInt8
  | .put => OP_PUT
  | .delete => OP_DELETE

/-- Key, number, operation and value. -/
def KeyValue.encode (kv : KeyValue) : Bytes :=
  putBytes kv.key.userKey ++ (beBytes 8 kv.key.seq.toNat ++ ([kv.key.op.tag] ++ putBytes kv.value))

def KeyValue.decode : Decode KeyValue := do
  let userKey ← getBytes
  let seq ← getU64
  let tag ← getU8
  let op ← (if tag = OP_PUT then pure .put
    else if tag = OP_DELETE then pure .delete
    else Decoder.fail (.unknownOpType tag) : Decode OpType)
  let value ← getBytes
  pure { key := { userKey, seq, op }, value }

/-- The bytes that an entry takes. -/
def entrySize (kv : KeyValue) : Nat := 4 + kv.key.userKey.length + 8 + 1 + 4 + kv.value.length

@[simp] theorem length_encode (kv : KeyValue) : kv.encode.length = entrySize kv := by
  simp [KeyValue.encode, entrySize]
  omega

theorem encode_ne_nil (kv : KeyValue) : kv.encode ≠ [] := by
  rw [← List.length_pos_iff, length_encode, entrySize]
  omega

/-- Both lengths fit their fields. -/
def KeyValue.Fits (kv : KeyValue) : Prop :=
  kv.key.userKey.length < 2 ^ 32 ∧ kv.value.length < 2 ^ 32

theorem KeyValue.fits_of_encode {kv : KeyValue} (h : kv.encode.length < 2 ^ 32) : kv.Fits := by
  rw [length_encode, entrySize] at h
  constructor <;> omega

theorem KeyValue.reads_encode {kv : KeyValue} (h : kv.Fits) :
    KeyValue.decode.Reads kv.encode kv := by
  have hop : Decoder.Reads (ε := DecodeError)
      (if kv.key.op.tag = OP_PUT then pure .put
        else if kv.key.op.tag = OP_DELETE then pure .delete
        else Decoder.fail (.unknownOpType kv.key.op.tag)) [] kv.key.op := by
    cases kv.key.op <;> exact Decoder.Reads.pure _
  refine Decoder.Reads.bind (reads_putBytes h.1) ?_
  refine Decoder.Reads.bind (Decoder.reads_u64 _ _) ?_
  refine Decoder.Reads.bind (Decoder.reads_u8 _ _) ?_
  exact Decoder.Reads.bind_nil hop (Decoder.Reads.bind_pure (reads_putBytes h.2))

/-- The entries, one after the other. -/
def encodeBlock (entries : List KeyValue) : Bytes := entries.flatMap KeyValue.encode

/-- Entries until the bytes end. -/
def decodeBlock (bytes : Bytes) : Except DecodeError (List KeyValue) :=
  KeyValue.decode.untilEmpty bytes.length bytes

theorem decodeBlock_encodeBlock {entries : List KeyValue} (h : ∀ kv ∈ entries, kv.Fits) :
    decodeBlock (encodeBlock entries) = .ok entries :=
  Decoder.untilEmpty_flatMap (fun kv hkv => KeyValue.reads_encode (h kv hkv))
    (fun kv _ => encode_ne_nil kv) (Nat.le_refl _)

end StrataDb.Lsm
