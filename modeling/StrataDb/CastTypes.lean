import StrataDb.Cast

/-!
# The type of a cast's result (`query/expression/cast.rs`: `eval_cast`)

Every scalar target gives a value of its own type or an error. An array target lets any array
through as it is, where an `INSERT` coerces each item to the column's element type.
-/

namespace StrataDb.Sql

variable {rt : Runtime} {v w : Value} {ty : LogicalType}

def Gives (ty : LogicalType) (x : Outcome Value) : Prop :=
  ∀ w, x = .ok w → w.hasType ty = true

theorem gives_ok (h : w.hasType ty = true) : Gives ty (.ok w) := by
  intro w' hw
  cases hw
  exact h

theorem gives_error (e : Fault) : Gives ty (.error e) :=
  fun _ h => nomatch h

theorem Gives.bind {α : Type} {x : Outcome α} {f : α → Outcome Value} (h : ∀ a, Gives ty (f a)) :
    Gives ty (x >>= f) := by
  cases x with
  | error e => exact gives_error e
  | ok a => exact h a

/-! ### The targets -/

theorem gives_castToBool (v : Value) : Gives .bool (castToBool rt v) := by
  cases v <;> try exact gives_error _
  case bool | int16 | int32 | int64 => exact gives_ok rfl
  case text s =>
    rw [castToBool]
    split
    · exact gives_ok rfl
    split
    · exact gives_ok rfl
    · exact gives_error _

theorem gives_fitIntCast {α : Type} {tryFrom : Int → Option α} {wrap : α → Value}
    (hwrap : ∀ a, (wrap a).hasType ty = true) (k : Int64) :
    Gives ty (fitIntCast k tryFrom wrap) := by
  unfold fitIntCast
  split
  · exact gives_ok (hwrap _)
  · exact gives_error _

theorem gives_castToNumeric (v : Value) : Gives .numeric (castToNumeric rt v) := by
  cases v <;>
    first | exact gives_ok rfl | exact gives_error _ | exact Gives.bind fun _ => gives_ok rfl

theorem gives_castToBytes (v : Value) : Gives .bytes (castToBytes rt v) := by
  cases v <;> first | exact gives_ok rfl | exact gives_error _

theorem gives_castToDate (v : Value) : Gives .date (castToDate rt v) := by
  cases v <;>
    first | exact gives_ok rfl | exact gives_error _ | exact Gives.bind fun _ => gives_ok rfl

theorem gives_castToTimestamp (v : Value) : Gives .timestamp (castToTimestamp rt v) := by
  cases v <;>
    try first | exact gives_ok rfl | exact gives_error _ | exact Gives.bind fun _ => gives_ok rfl
  case date days =>
    rw [castToTimestamp]
    split
    · exact gives_ok rfl
    · exact gives_error _

theorem gives_castToTime (v : Value) : Gives .time (castToTime rt v) := by
  cases v <;>
    first | exact gives_ok rfl | exact gives_error _ | exact Gives.bind fun _ => gives_ok rfl

theorem gives_castToUuid (v : Value) : Gives .uuid (castToUuid rt v) := by
  cases v <;>
    first | exact gives_ok rfl | exact gives_error _ | exact Gives.bind fun _ => gives_ok rfl

theorem gives_castToInterval (v : Value) : Gives .interval (castToInterval rt v) := by
  cases v <;>
    first | exact gives_ok rfl | exact gives_error _ | exact Gives.bind fun _ => gives_ok rfl

theorem gives_castToJson (v : Value) : Gives .json (castToJson rt v) := by
  cases v <;>
    first | exact gives_ok rfl | exact gives_error _ | exact Gives.bind fun _ => gives_ok rfl

theorem gives_evalCast (hnull : v.isNull = false) (hscalar : ∀ element, ty ≠ .array element) :
    Gives ty (evalCast rt v ty) := by
  unfold evalCast
  rw [hnull, if_neg Bool.false_ne_true]
  cases ty with
  | bool => exact gives_castToBool v
  | int16 => exact Gives.bind (gives_fitIntCast fun _ => rfl)
  | int32 => exact Gives.bind (gives_fitIntCast fun _ => rfl)
  | int64 => exact Gives.bind fun _ => gives_ok rfl
  | float32 => exact Gives.bind fun _ => gives_ok rfl
  | float64 => exact Gives.bind fun _ => gives_ok rfl
  | numeric => exact gives_castToNumeric v
  | text => exact Gives.bind fun _ => gives_ok rfl
  | bytes => exact gives_castToBytes v
  | date => exact gives_castToDate v
  | timestamp => exact gives_castToTimestamp v
  | time => exact gives_castToTime v
  | uuid => exact gives_castToUuid v
  | interval => exact gives_castToInterval v
  | json => exact gives_castToJson v
  | array element => exact absurd rfl (hscalar element)

/-- **Casts are type sound but for arrays of another element type**, which pass through
    as they are. -/
theorem cast_type_sound_iff (rt : Runtime) (v : Value) (ty : LogicalType) :
    (∀ w, evalCast rt v ty = .ok w → w.fits ty = true)
      ↔ ∀ items element, v = .array items → ty = .array element → v.hasType ty = true := by
  constructor
  · rintro hsound items element rfl rfl
    exact hsound (.array items) rfl
  · intro harray w hw
    rw [Value.fits, Bool.or_eq_true]
    by_cases hnull : v.isNull = true
    · unfold evalCast at hw
      rw [if_pos hnull] at hw
      obtain rfl := Except.ok.inj hw
      exact Or.inl rfl
    have hnull := Bool.eq_false_iff.mpr hnull
    right
    by_cases hscalar : ∀ element, ty ≠ .array element
    · exact gives_evalCast hnull hscalar w hw
    · push Not at hscalar
      obtain ⟨element, rfl⟩ := hscalar
      unfold evalCast at hw
      rw [hnull, if_neg Bool.false_ne_true] at hw
      cases v <;> cases hw
      exact harray _ element rfl rfl

/-- **An array of integers cast to an array of texts.** -/
theorem cast_integers_as_texts :
    evalCast default (.array [.int64 1]) (.array .text) = .ok (.array [.int64 1])
      ∧ (Value.array [.int64 1]).fits (.array .text) = false :=
  ⟨rfl, rfl⟩

end StrataDb.Sql
