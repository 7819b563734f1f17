import StrataDb.ByteCodec

/-!
# The shared on-disk vocabulary (`crates/filesystem/src/codec.rs`)

`put_bytes` writes `value.len() as u32`, so `reads_putBytes` holds exactly below `2 ^ 32`.
-/

namespace StrataDb.Codec

open ByteCodec

/-- `DecodeError`. -/
inductive DecodeError where
  | unexpectedEof
  | badMagic (expected got : UInt32)
  | unsupportedVersion (version : UInt16)
  | unknownOpType (tag : UInt8)
deriving DecidableEq, Repr

/-- `{:#010x}`. -/
def hex8 (n : Nat) : String :=
  let digits := Nat.toDigits 16 n
  "0x" ++ String.ofList (List.replicate (8 - digits.length) '0' ++ digits)

/-- `Display for DecodeError`. -/
def DecodeError.text : DecodeError → String
  | .unexpectedEof => "unexpected end of input"
  | .badMagic expected got =>
      "bad magic: expected " ++ hex8 expected.toNat ++ ", got " ++ hex8 got.toNat
  | .unsupportedVersion version => "unsupported format version: " ++ toString version.toNat
  | .unknownOpType tag => "unknown op-type byte: " ++ toString tag.toNat

/-- A `Cursor`. -/
abbrev Decode (α : Type) := Decoder DecodeError α

def getU8 : Decode UInt8 := Decoder.u8 .unexpectedEof
def getU16 : Decode UInt16 := Decoder.u16 .unexpectedEof
def getU32 : Decode UInt32 := Decoder.u32 .unexpectedEof
def getU64 : Decode UInt64 := Decoder.u64 .unexpectedEof

/-- A length of four bytes, and as many bytes. -/
def getBytes : Decode Bytes := do
  let len ← getU32
  Decoder.take .unexpectedEof len.toNat

/-- The length is cast to 32 bits. -/
def putBytes (value : Bytes) : Bytes := beBytes 4 value.length ++ value

@[simp] theorem length_putBytes (value : Bytes) : (putBytes value).length = 4 + value.length := by
  simp [putBytes]

theorem reads_putBytes {value : Bytes} (h : value.length < 2 ^ 32) :
    getBytes.Reads (putBytes value) value := by
  refine Decoder.Reads.bind (Decoder.reads_count _ h) (Decoder.reads_take _ ?_)
  rw [UInt32.toNat_ofNat_of_lt' h]

end StrataDb.Codec
