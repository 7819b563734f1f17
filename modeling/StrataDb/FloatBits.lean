import Mathlib.Algebra.Order.Ring.Nat
import Mathlib.Data.Nat.Log

/-!
# Conversions of binary floats, by bit patterns

A float with `p` bits of fraction is a sign and a magnitude. The magnitude `n` is `units p n`
times the smallest positive number, `1 / 2 ^ scale`; the conversions compute with these whole
numbers.
-/

namespace StrataDb.FloatBits

/-- A magnitude as a multiple of the smallest one: exponent zero is the subnormal
    range, and above it the leading bit is implicit. -/
def units (p n : ℕ) : ℕ :=
  if n / 2 ^ p = 0 then n else (2 ^ p + n % 2 ^ p) * 2 ^ (n / 2 ^ p - 1)

/-- The last place of at most `m` units. -/
def floorPlace (p m : ℕ) : ℕ :=
  (m.log2 - p) * 2 ^ p + m / 2 ^ (m.log2 - p)

/-- The place nearest to `m` units, on a tie the even one. -/
def nearestPlace (p m : ℕ) : ℕ :=
  let gap := 2 ^ (m.log2 - p)
  if 2 * (m % gap) < gap ∨ 2 * (m % gap) = gap ∧ m / gap % 2 = 0 then
    floorPlace p m
  else
    floorPlace p m + 1

/-- The whole number nearest to a magnitude, on a tie the larger one. -/
def nearestWhole (p scale n : ℕ) : ℕ :=
  (2 * units p n + 2 ^ scale) / 2 ^ (scale + 1)

/-- The magnitude of the infinities of a word of `k + 1` bits; the NaNs are above it. -/
def infinity (k p : ℕ) : ℕ :=
  (2 ^ (k - p) - 1) * 2 ^ p

/-- The place of the nearest whole number.  From `2 ^ p` on every
    magnitude is whole, and the infinities and the NaNs are left alone. -/
def roundPlace (p scale n : ℕ) : ℕ :=
  if units p n < 2 ^ (p + scale) then
    floorPlace p (nearestWhole p scale n * 2 ^ scale)
  else
    n

/-- The whole part of a magnitude. -/
def wholePart (p scale n : ℕ) : ℕ :=
  units p n / 2 ^ scale

/-- The word of `k + 1` bits with this sign and magnitude. -/
def word (k : ℕ) (negative : Bool) (n : ℕ) : BitVec (k + 1) :=
  .ofNat (k + 1) (if negative then 2 ^ k + n else n)

end StrataDb.FloatBits
