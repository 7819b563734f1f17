import Mathlib.Data.List.Lex
import Mathlib.Tactic

/-!
# Big-endian words and cursor decoders

`beBytes w n` keeps the low `8 * w` bits of `n`, as a cast to a machine word does. A `Decoder`
takes the unread bytes to a value and the bytes left, or to an error. `Reads d e a`: decoding
consumes exactly `e` and yields `a`, whatever follows; its rules turn the round trip of a format
into one rule per field.
-/

namespace StrataDb.ByteCodec

abbrev Bytes := List UInt8

/-! ### The order of machine words

Byte strings are compared lexicographically, sequence numbers as unsigned
integers.  The core library gives the relations; these instances give the laws,
which also makes `List UInt8` a linear order. -/

instance linearOrderUInt8 : LinearOrder UInt8 where
  le_refl a := UInt8.le_iff_toNat_le.mpr (Nat.le_refl _)
  le_trans a b c hab hbc := by
    rw [UInt8.le_iff_toNat_le] at *
    exact Nat.le_trans hab hbc
  le_antisymm a b hab hba := by
    rw [UInt8.le_iff_toNat_le] at *
    exact UInt8.toNat_inj.mp (Nat.le_antisymm hab hba)
  le_total a b := by
    simp only [UInt8.le_iff_toNat_le]
    exact Nat.le_total _ _
  lt_iff_le_not_ge a b := by
    simp only [UInt8.le_iff_toNat_le, UInt8.lt_iff_toNat_lt]
    omega
  toDecidableLE := inferInstance

instance linearOrderUInt64 : LinearOrder UInt64 where
  le_refl a := UInt64.le_iff_toNat_le.mpr (Nat.le_refl _)
  le_trans a b c hab hbc := by
    rw [UInt64.le_iff_toNat_le] at *
    exact Nat.le_trans hab hbc
  le_antisymm a b hab hba := by
    rw [UInt64.le_iff_toNat_le] at *
    exact UInt64.toNat_inj.mp (Nat.le_antisymm hab hba)
  le_total a b := by
    simp only [UInt64.le_iff_toNat_le]
    exact Nat.le_total _ _
  lt_iff_le_not_ge a b := by
    simp only [UInt64.le_iff_toNat_le, UInt64.lt_iff_toNat_lt]
    omega
  toDecidableLE := inferInstance

/-! ### Big-endian words -/

/-- The `w` low-order bytes of `n`, most significant first. -/
def beBytes : Nat → Nat → Bytes
  | 0, _ => []
  | w + 1, n => UInt8.ofNat (n / 256 ^ w) :: beBytes w n

/-- The number a byte string denotes in base 256, most significant byte first. -/
def beNat : Bytes → Nat
  | [] => 0
  | b :: bs => b.toNat * 256 ^ bs.length + beNat bs

@[simp] theorem length_beBytes (w n : Nat) : (beBytes w n).length = w := by
  induction w with
  | zero => rfl
  | succ w ih => simp [beBytes, ih]

theorem beNat_beBytes (w n : Nat) : beNat (beBytes w n) = n % 256 ^ w := by
  induction w with
  | zero => simp [beBytes, beNat, Nat.mod_one]
  | succ w ih =>
    have hbyte : (UInt8.ofNat (n / 256 ^ w)).toNat = n / 256 ^ w % 256 := by
      simp [UInt8.toNat_ofNat']
    simp only [beBytes, beNat, length_beBytes, hbyte, ih]
    rw [Nat.pow_succ, Nat.mod_mul, Nat.mul_comm (256 ^ w), Nat.add_comm]

theorem beNat_beBytes_of_lt {w n : Nat} (h : n < 256 ^ w) : beNat (beBytes w n) = n := by
  rw [beNat_beBytes, Nat.mod_eq_of_lt h]

theorem beNat_lt (bs : Bytes) : beNat bs < 256 ^ bs.length := by
  induction bs with
  | nil => simp [beNat]
  | cons b bs ih =>
    have hb : b.toNat < 256 := b.toNat_lt
    have hmul : (b.toNat + 1) * 256 ^ bs.length ≤ 256 * 256 ^ bs.length :=
      Nat.mul_le_mul_right _ hb
    simp only [beNat, List.length_cons, Nat.pow_succ]
    rw [Nat.add_mul] at hmul
    omega

section Sizes

variable {α : Type} {enc : α → Bytes} {as : List α}

theorem length_le_flatMap_of_mem (enc : α → Bytes) {a : α} (h : a ∈ as) :
    (enc a).length ≤ (as.flatMap enc).length := by
  induction as with
  | nil => cases h
  | cons b as ih =>
    rw [List.flatMap_cons, List.length_append]
    rcases List.mem_cons.mp h with rfl | h
    · omega
    · have := ih h
      omega

theorem count_le_length_flatMap (h : ∀ a ∈ as, enc a ≠ []) :
    as.length ≤ (as.flatMap enc).length := by
  induction as with
  | nil => exact Nat.le_refl 0
  | cons a as ih =>
    have ha : 0 < (enc a).length := List.length_pos_iff.mpr (h a List.mem_cons_self)
    have has := ih (fun b hb => h b (List.mem_cons_of_mem a hb))
    rw [List.flatMap_cons, List.length_append, List.length_cons]
    omega

end Sizes

/-! ### Decoders over a byte cursor -/

/-- A decoder takes the unread bytes and returns a value with the bytes after it. -/
def Decoder (ε α : Type) := Bytes → Except ε (α × Bytes)

namespace Decoder

variable {ε α β : Type}

instance : Monad (Decoder ε) where
  pure a := fun bs => .ok (a, bs)
  bind d f := fun bs =>
    match d bs with
    | .ok (a, rest) => f a rest
    | .error e => .error e

def fail (e : ε) : Decoder ε α := fun _ => .error e

def take (eof : ε) (n : Nat) : Decoder ε Bytes := fun bs =>
  if bs.length < n then .error eof else .ok (bs.take n, bs.drop n)

def times : Nat → Decoder ε α → Decoder ε (List α)
  | 0, _ => pure []
  | n + 1, d => do
    let a ← d
    let as ← times n d
    pure (a :: as)

/-- Run a decoder until no byte is left.  `fuel` bounds the number of rounds; the
    length of the input is enough whenever every round consumes a byte. -/
def untilEmpty (d : Decoder ε α) : Nat → Bytes → Except ε (List α)
  | 0, _ => .ok []
  | fuel + 1, bs =>
    if bs.isEmpty then .ok [] else
      match d bs with
      | .error e => .error e
      | .ok (a, rest) =>
        match untilEmpty d fuel rest with
        | .error e => .error e
        | .ok as => .ok (a :: as)

/-- `d` consumes exactly `e` and yields `a`, whatever bytes follow. -/
def Reads (d : Decoder ε α) (e : Bytes) (a : α) : Prop :=
  ∀ rest, d (e ++ rest) = .ok (a, rest)

theorem Reads.pure (a : α) : Reads (pure a : Decoder ε α) [] a := fun _ => rfl

theorem Reads.bind {d : Decoder ε α} {f : α → Decoder ε β} {e₁ e₂ : Bytes} {a : α} {b : β}
    (h₁ : Reads d e₁ a) (h₂ : Reads (f a) e₂ b) : Reads (d >>= f) (e₁ ++ e₂) b := by
  intro rest
  show (match d (e₁ ++ e₂ ++ rest) with
    | .ok (a, rest) => f a rest
    | .error e => .error e) = .ok (b, rest)
  rw [List.append_assoc, h₁ (e₂ ++ rest)]
  exact h₂ rest

theorem Reads.bind_nil {d : Decoder ε α} {f : α → Decoder ε β} {e : Bytes} {a : α} {b : β}
    (h₁ : Reads d [] a) (h₂ : Reads (f a) e b) : Reads (d >>= f) e b := by
  simpa using Reads.bind h₁ h₂

/-- The last step of a decoder consumes nothing: it only assembles the value. -/
theorem Reads.bind_pure {d : Decoder ε α} {g : α → β} {e : Bytes} {a : α}
    (h : Reads d e a) : Reads (d >>= fun x => Pure.pure (g x)) e (g a) := by
  have hbind := Reads.bind (f := fun x => (Pure.pure (g x) : Decoder ε β)) h
    (Reads.pure (g a))
  simpa using hbind

theorem reads_take (eof : ε) {bs : Bytes} {n : Nat} (h : bs.length = n) :
    Reads (take eof n) bs bs := by
  intro rest
  subst h
  simp [take]

def u8 (eof : ε) : Decoder ε UInt8 := do
  let bs ← take eof 1
  pure (UInt8.ofNat (beNat bs))

def u16 (eof : ε) : Decoder ε UInt16 := do
  let bs ← take eof 2
  pure (UInt16.ofNat (beNat bs))

def u32 (eof : ε) : Decoder ε UInt32 := do
  let bs ← take eof 4
  pure (UInt32.ofNat (beNat bs))

def u64 (eof : ε) : Decoder ε UInt64 := do
  let bs ← take eof 8
  pure (UInt64.ofNat (beNat bs))

theorem reads_u8 (eof : ε) (x : UInt8) : Reads (u8 eof) [x] x := by
  have h := Reads.bind_pure (g := fun bs => UInt8.ofNat (beNat bs))
    (reads_take eof (show [x].length = 1 from rfl))
  simpa [u8, beNat] using h

theorem reads_u16 (eof : ε) (x : UInt16) : Reads (u16 eof) (beBytes 2 x.toNat) x := by
  have h := Reads.bind_pure (g := fun bs => UInt16.ofNat (beNat bs))
    (reads_take eof (length_beBytes 2 x.toNat))
  rwa [beNat_beBytes_of_lt x.toNat_lt, UInt16.ofNat_toNat] at h

theorem reads_u32 (eof : ε) (x : UInt32) : Reads (u32 eof) (beBytes 4 x.toNat) x := by
  have h := Reads.bind_pure (g := fun bs => UInt32.ofNat (beNat bs))
    (reads_take eof (length_beBytes 4 x.toNat))
  rwa [beNat_beBytes_of_lt x.toNat_lt, UInt32.ofNat_toNat] at h

theorem reads_u64 (eof : ε) (x : UInt64) : Reads (u64 eof) (beBytes 8 x.toNat) x := by
  have h := Reads.bind_pure (g := fun bs => UInt64.ofNat (beNat bs))
    (reads_take eof (length_beBytes 8 x.toNat))
  rwa [beNat_beBytes_of_lt x.toNat_lt, UInt64.ofNat_toNat] at h

theorem reads_count (eof : ε) {n : Nat} (h : n < 2 ^ 32) :
    Reads (u32 eof) (beBytes 4 n) (UInt32.ofNat n) := by
  have hread := reads_u32 eof (UInt32.ofNat n)
  rwa [UInt32.toNat_ofNat_of_lt' h] at hread

theorem Reads.times {d : Decoder ε α} {enc : α → Bytes} {as : List α}
    (h : ∀ a ∈ as, Reads d (enc a) a) : Reads (times as.length d) (as.flatMap enc) as := by
  induction as with
  | nil => exact Reads.pure []
  | cons a as ih =>
    have htail := ih (fun b hb => h b (List.mem_cons_of_mem a hb))
    exact Reads.bind (h a List.mem_cons_self) (Reads.bind_pure htail)

theorem untilEmpty_flatMap {d : Decoder ε α} {enc : α → Bytes} {as : List α}
    (h : ∀ a ∈ as, Reads d (enc a) a) (hne : ∀ a ∈ as, enc a ≠ []) {fuel : Nat}
    (hfuel : (as.flatMap enc).length ≤ fuel) : untilEmpty d fuel (as.flatMap enc) = .ok as := by
  induction as generalizing fuel with
  | nil => cases fuel <;> rfl
  | cons a as ih =>
    have hpos : 0 < (enc a).length :=
      List.length_pos_iff.mpr (hne a List.mem_cons_self)
    simp only [List.flatMap_cons, List.length_append] at hfuel
    obtain ⟨fuel, rfl⟩ : ∃ m, fuel = m + 1 := ⟨fuel - 1, by omega⟩
    have hcons : (enc a ++ as.flatMap enc).isEmpty = false := by
      rw [List.isEmpty_eq_false_iff, ← List.length_pos_iff]
      simp only [List.length_append]; omega
    have htail : untilEmpty d fuel (as.flatMap enc) = .ok as :=
      ih (fun b hb => h b (List.mem_cons_of_mem a hb))
        (fun b hb => hne b (List.mem_cons_of_mem a hb)) (by omega)
    have hread := h a List.mem_cons_self (as.flatMap enc)
    simp only [List.flatMap_cons, untilEmpty, hcons, Bool.false_eq_true, if_false, hread, htail]

end Decoder

end StrataDb.ByteCodec
