import StrataDb.Crc
import StrataDb.Journal

/-!
# Blocks, page headers and checksums (`crates/filesystem/src/block/mod.rs`, `page/header.rs`)

```text
off  size  field
0    4     magic            "STDB"
4    1     header version   u8
5    2     page type        u16
7    2     format version   u16
9    8     LSN              u64
17   4     checksum         u32
```

The checksum covers the page except its own four bytes, so two pages that differ in those only are
the same page to everyone but the cache (`Block.Agrees`).
-/

namespace StrataDb.Filesystem

open ByteCodec Slices
open Journal (IoError JournalError)

inductive FsError where
  | io (e : IoError)
  | checksum (id : Nat)
  | badMagic
  | badHeaderVersion (version : UInt8)
  | badPageType (expected got : Nat)
  | poolExhausted (frames : Nat)
  | busy (id : Nat)
  | tupleTooLarge (len max : Nat)
  | journal (e : JournalError)
  | freeListOverflow (len max : Nat)
  | workspaceFull (requested used capacity : Nat)
deriving DecidableEq, Repr

/-! ### Blocks -/

def BLOCK_SIZE : Nat := 8 * 1024
def PAGE_SIZE : Nat := BLOCK_SIZE

structure Block where
  bytes : Bytes
  length_eq : bytes.length = BLOCK_SIZE
deriving DecidableEq

namespace Block

def zeroed : Block := ⟨List.replicate BLOCK_SIZE 0, List.length_replicate⟩

def get (b : Block) (off len : Nat) : Bytes := slice b.bytes off len

/-- Copy `bs` into the block at `off`; a range that is not inside the block is left
    alone (the source panics there). -/
def put (b : Block) (off : Nat) (bs : Bytes) : Block :=
  if h : off + bs.length ≤ BLOCK_SIZE then
    ⟨overwrite b.bytes off bs, by rw [length_overwrite (by rw [b.length_eq]; exact h), b.length_eq]⟩
  else b

theorem get_zeroed {off len : Nat} (h : off + len ≤ BLOCK_SIZE) :
    zeroed.get off len = List.replicate len 0 := by
  rw [get, slice, zeroed, List.drop_replicate, List.take_replicate, Nat.min_eq_left (by omega)]

theorem bytes_put {b : Block} {off : Nat} {bs : Bytes} (h : off + bs.length ≤ BLOCK_SIZE) :
    (b.put off bs).bytes = overwrite b.bytes off bs := by
  rw [put, dif_pos h]

theorem get_put_self {b : Block} {off : Nat} {bs : Bytes} (h : off + bs.length ≤ BLOCK_SIZE) :
    (b.put off bs).get off bs.length = bs := by
  rw [get, bytes_put h, slice_overwrite_self (by rw [b.length_eq]; omega)]

theorem get_put_inside {b : Block} {off : Nat} {bs : Bytes} {i len : Nat}
    (h : off + bs.length ≤ BLOCK_SIZE) (hi : i + len ≤ bs.length) :
    (b.put off bs).get (off + i) len = slice bs i len := by
  rw [get, bytes_put h, slice_overwrite_inside (by rw [b.length_eq]; omega) hi]

theorem get_put_of_disjoint {b : Block} {off : Nat} {bs : Bytes} {off' len : Nat}
    (hdisjoint : off' + len ≤ off ∨ off + bs.length ≤ off') :
    (b.put off bs).get off' len = b.get off' len := by
  by_cases h : off + bs.length ≤ BLOCK_SIZE
  · rw [get, bytes_put h, slice_overwrite_of_disjoint (by rw [b.length_eq]; omega) hdisjoint, get]
  · rw [put, dif_neg h]

end Block

/-! ### Checksums -/

def HEADER_LEN : Nat := 21
def OFF_CHECKSUM : Nat := 17

structure Crc32c where
  crc32c : Bytes → UInt32
  append : UInt32 → Bytes → UInt32

def castagnoli : Crc32c := ⟨Crc.crc32c, Crc.crc32cAppend⟩

/-- The blocks are equal outside the checksum field. -/
def Block.Agrees (a b : Block) : Prop :=
  ∀ i, i < OFF_CHECKSUM ∨ OFF_CHECKSUM + 4 ≤ i → a.bytes[i]? = b.bytes[i]?

theorem Block.Agrees.refl (a : Block) : a.Agrees a := fun _ _ => rfl

theorem Block.Agrees.trans {a b c : Block} (h : a.Agrees b) (h' : b.Agrees c) : a.Agrees c :=
  fun i hi => (h i hi).trans (h' i hi)

theorem Block.Agrees.get {a b : Block} (h : a.Agrees b) {off len : Nat}
    (hoff : off + len ≤ OFF_CHECKSUM ∨ OFF_CHECKSUM + 4 ≤ off) : a.get off len = b.get off len :=
  slice_congr (fun i hi hi' => h i (by omega))

section Checksums

variable (crc : Crc32c)

def checksum (page : Block) : UInt32 :=
  crc.append (crc.crc32c (page.get 0 OFF_CHECKSUM))
    (page.get (OFF_CHECKSUM + 4) (BLOCK_SIZE - (OFF_CHECKSUM + 4)))

def finalizeChecksum (page : Block) : Block :=
  page.put OFF_CHECKSUM (beBytes 4 (checksum crc page).toNat)

def verifyChecksum (page : Block) (id : Nat) : Except FsError Unit :=
  if (checksum crc page).toNat ≠ beNat (page.get OFF_CHECKSUM 4) then .error (.checksum id)
  else .ok ()

def Verifies (page : Block) : Prop := (checksum crc page).toNat = beNat (page.get OFF_CHECKSUM 4)

instance (page : Block) : Decidable (Verifies crc page) :=
  inferInstanceAs (Decidable (_ = _))

variable {crc}

theorem verifyChecksum_eq_ok {page : Block} {id : Nat} :
    verifyChecksum crc page id = .ok () ↔ Verifies crc page := by
  unfold verifyChecksum Verifies
  split_ifs with h
  · simp [h]
  · simp [not_not.mp h]

theorem verifyChecksum_error {page : Block} (h : ¬ Verifies crc page) (id : Nat) :
    verifyChecksum crc page id = .error (.checksum id) := if_pos h

theorem Block.Agrees.checksum_eq {a b : Block} (h : a.Agrees b) :
    checksum crc a = checksum crc b := by
  unfold checksum
  rw [h.get (Or.inl (Nat.le_refl _)), h.get (Or.inr (Nat.le_refl _))]

theorem finalizeChecksum_agrees (page : Block) : (finalizeChecksum crc page).Agrees page := by
  intro i hi
  have hfits : OFF_CHECKSUM + (beBytes 4 (checksum crc page).toNat).length ≤ BLOCK_SIZE := by
    rw [length_beBytes]
    decide
  rw [finalizeChecksum, Block.bytes_put hfits, getElem?_overwrite (by rw [page.length_eq]; decide),
    if_neg (by rw [length_beBytes]; omega)]

theorem verifies_finalizeChecksum (page : Block) : Verifies crc (finalizeChecksum crc page) := by
  have hlen : (beBytes 4 (checksum crc page).toNat).length = 4 := length_beBytes _ _
  have hstored : (finalizeChecksum crc page).get OFF_CHECKSUM 4 =
      beBytes 4 (checksum crc page).toNat := by
    have hself : (finalizeChecksum crc page).get OFF_CHECKSUM
        (beBytes 4 (checksum crc page).toNat).length = beBytes 4 (checksum crc page).toNat :=
      Block.get_put_self (by rw [hlen]; decide)
    rwa [hlen] at hself
  rw [Verifies, (finalizeChecksum_agrees page).checksum_eq, hstored,
    beNat_beBytes_of_lt (checksum crc page).toNat_lt]

end Checksums

/-- **An all-zero page does not verify**: a block the store grew by, and nobody wrote,
    is not taken for a page. -/
theorem not_verifies_castagnoli_zeroed : ¬ Verifies castagnoli Block.zeroed := by
  have hshift : Crc.shiftZeros (0x82F63B78 : UInt32).toNat (8 * (BLOCK_SIZE - 4)) 0xFFFFFFFF ≠
      0xFFFFFFFF := by decide +kernel
  have hsum : checksum castagnoli Block.zeroed =
      Crc.crc 0x82F63B78 (List.replicate (BLOCK_SIZE - 4) 0) := by
    unfold checksum
    rw [Block.get_zeroed (by decide), Block.get_zeroed (by decide)]
    exact (Crc.crcAppend_crc _ _ _).trans (by rw [List.replicate_append_replicate]; rfl)
  have hstored : beNat (List.replicate 4 0) = (0 : UInt32).toNat := by decide
  intro h
  rw [Verifies, hsum, Block.get_zeroed (by decide), hstored] at h
  exact hshift (Crc.crc_zeros_eq_zero (UInt32.toNat_inj.mp h))

/-! ### Page headers -/

def MAGIC : Bytes := [83, 84, 68, 66]
def HEADER_VERSION : UInt8 := 1

structure PageHeader where
  pageType : Nat
  formatVersion : Nat
  lsn : Nat
deriving DecidableEq, Repr

namespace PageHeader

def new (pageType formatVersion : Nat) : PageHeader := ⟨pageType, formatVersion, 0⟩

def encode (h : PageHeader) : Bytes :=
  MAGIC ++ HEADER_VERSION
    :: (beBytes 2 h.pageType ++ (beBytes 2 h.formatVersion ++ beBytes 8 h.lsn))

def write (h : PageHeader) (page : Block) : Block := page.put 0 h.encode

def parse (page : Block) : Except FsError PageHeader :=
  if page.get 0 4 ≠ MAGIC then .error .badMagic
  else if page.get 4 1 ≠ [HEADER_VERSION] then
    .error (.badHeaderVersion ((page.get 4 1).headD 0))
  else .ok ⟨beNat (page.get 5 2), beNat (page.get 7 2), beNat (page.get 9 8)⟩

theorem parse_congr {a b : Block}
    (h : ∀ off len, off + len ≤ OFF_CHECKSUM → a.get off len = b.get off len) :
    parse a = parse b := by
  unfold parse
  rw [h 0 4 (by decide), h 4 1 (by decide), h 5 2 (by decide), h 7 2 (by decide), h 9 8 (by decide)]

theorem parse_write {header : PageHeader} (page : Block) (htype : header.pageType < 2 ^ 16)
    (hformat : header.formatVersion < 2 ^ 16) (hlsn : header.lsn < 2 ^ 64) :
    parse (header.write page) = .ok header := by
  have hlen : header.encode.length = 17 := by simp [encode, MAGIC]
  have hget (off len : Nat) (hoff : off + len ≤ 17) :
      (header.write page).get off len = slice header.encode off len := by
    have hin :=
      @Block.get_put_inside page 0 header.encode off len (by rw [hlen]; decide)
        (by rw [hlen]; exact hoff)
    rwa [Nat.zero_add] at hin
  unfold parse
  rw [hget 0 4 (by decide), hget 4 1 (by decide), hget 5 2 (by decide), hget 7 2 (by decide),
    hget 9 8 (by decide)]
  have hmagic : slice header.encode 0 4 = MAGIC := by simp [encode, slice, MAGIC]
  have hversion : slice header.encode 4 1 = [HEADER_VERSION] := by simp [encode, slice, MAGIC]
  have htype' : slice header.encode 5 2 = beBytes 2 header.pageType := by
    simp [encode, slice, MAGIC]
  have hformat' : slice header.encode 7 2 = beBytes 2 header.formatVersion := by
    simp [encode, slice, MAGIC]
  have hskip : (beBytes 2 header.pageType).drop 4 = [] := List.drop_of_length_le (by simp)
  have hlsn' : slice header.encode 9 8 = beBytes 8 header.lsn := by
    simp [encode, slice, MAGIC, List.drop_append, hskip]
  rw [hmagic, hversion, htype', hformat', hlsn', if_neg (by simp), if_neg (by simp),
    beNat_beBytes_of_lt htype, beNat_beBytes_of_lt hformat, beNat_beBytes_of_lt hlsn]

end PageHeader

end StrataDb.Filesystem
