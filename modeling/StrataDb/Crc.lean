import StrataDb.ByteCodec

/-!
# Cyclic redundancy checks

The reflected 32-bit CRC as a function of its polynomial. Results about files and pages take the
checksum as a parameter; these definitions are what concrete runs are evaluated with.
-/

namespace StrataDb.Crc

open ByteCodec

def crcBit (poly r : UInt32) : UInt32 :=
  if r &&& 1 = 1 then (r >>> 1) ^^^ poly else r >>> 1

def crcByte (poly r : UInt32) (b : UInt8) : UInt32 :=
  (List.range 8).foldl (fun r _ => crcBit poly r) (r ^^^ b.toUInt32)

def crcAppend (poly sum : UInt32) (bs : Bytes) : UInt32 := ~~~ bs.foldl (crcByte poly) (~~~ sum)

def crc (poly : UInt32) (bs : Bytes) : UInt32 := crcAppend poly 0 bs

theorem crcAppend_crc (poly : UInt32) (xs ys : Bytes) :
    crcAppend poly (crc poly xs) ys = crc poly (xs ++ ys) := by
  simp only [crcAppend, crc, List.foldl_append, UInt32.not_not]

def crc32 : Bytes → UInt32 := crc 0xEDB88320

def crc32c : Bytes → UInt32 := crc 0x82F63B78

def crc32cAppend : UInt32 → Bytes → UInt32 := crcAppend 0x82F63B78

-- the published check values: the checksums of the ASCII digits one to nine
example : crc32 [49, 50, 51, 52, 53, 54, 55, 56, 57] = 0xCBF43926 := by decide +kernel
example : crc32c [49, 50, 51, 52, 53, 54, 55, 56, 57] = 0xE3069283 := by decide +kernel

theorem crc32_nil : crc32 [] = 0 := by decide

/-! ### Runs of zero bytes -/

def shiftBit (poly r : Nat) : Nat := if r % 2 = 1 then (r / 2) ^^^ poly else r / 2

/-- `n` zero bits through the register.  The test makes a closed run evaluate the
    register at every step instead of at the end. -/
def shiftZeros (poly : Nat) : Nat → Nat → Nat
  | 0, r => r
  | n + 1, r => if r = 0 then shiftZeros poly n 0 else shiftZeros poly n (shiftBit poly r)

theorem toNat_crcBit (poly r : UInt32) : (crcBit poly r).toNat = shiftBit poly.toNat r.toNat := by
  have hodd : r &&& 1 = 1 ↔ r.toNat % 2 = 1 := by
    rw [← UInt32.toNat_inj, UInt32.toNat_and]
    show r.toNat &&& 1 = 1 ↔ _
    rw [Nat.and_one_is_mod]
  have hhalf : (r >>> 1).toNat = r.toNat / 2 := by
    rw [UInt32.toNat_shiftRight]
    show r.toNat >>> 1 = _
    rw [Nat.shiftRight_one]
  unfold crcBit shiftBit
  by_cases h : r.toNat % 2 = 1
  · rw [if_pos (hodd.mpr h), if_pos h, UInt32.toNat_xor, hhalf]
  · rw [if_neg (mt hodd.mp h), if_neg h, hhalf]

theorem shiftZeros_eq (poly n r : Nat) : shiftZeros poly n r = (shiftBit poly)^[n] r := by
  induction n generalizing r with
  | zero => rfl
  | succ n ih =>
    rw [shiftZeros, Function.iterate_succ_apply]
    split_ifs with h
    · rw [ih, h]
      rfl
    · rw [ih]

theorem toNat_foldl_crcBit (poly r : UInt32) (n : Nat) :
    ((List.range n).foldl (fun r _ => crcBit poly r) r).toNat =
      (shiftBit poly.toNat)^[n] r.toNat := by
  induction n with
  | zero => rfl
  | succ n ih =>
    rw [List.range_succ, List.foldl_append, Function.iterate_succ_apply', ← ih]
    exact toNat_crcBit _ _

theorem toNat_foldl_zeros (poly r : UInt32) (n : Nat) :
    ((List.replicate n 0).foldl (crcByte poly) r).toNat =
      shiftZeros poly.toNat (8 * n) r.toNat := by
  rw [shiftZeros_eq]
  induction n generalizing r with
  | zero => rfl
  | succ n ih =>
    have hbyte : (crcByte poly r 0).toNat = (shiftBit poly.toNat)^[8] r.toNat := by
      rw [crcByte, toNat_foldl_crcBit]
      simp
    rw [List.replicate_succ, List.foldl_cons, ih, hbyte, ← Function.iterate_add_apply, Nat.mul_succ]

theorem crc_zeros_eq_zero {poly : UInt32} {n : Nat} (h : crc poly (List.replicate n 0) = 0) :
    shiftZeros poly.toNat (8 * n) 0xFFFFFFFF = 0xFFFFFFFF := by
  have hfold : (List.replicate n 0).foldl (crcByte poly) (~~~ 0) = ~~~ 0 := by
    rw [crc, crcAppend] at h
    have hnot := congrArg (~~~ ·) h
    rwa [UInt32.not_not] at hnot
  have hshift := toNat_foldl_zeros poly (~~~ 0) n
  rw [hfold] at hshift
  exact hshift.symm

end StrataDb.Crc
