import StrataDb.Expression
import StrataDb.Runs

/-!
# When evaluation panics (`Expr::eval` of `crates/strata-db/src/query/expression`)

A built-in reads an argument that is not there, a date or timestamp outside `chrono`'s calendar is
printed, a midnight does not fit a timestamp, or `REPEAT` asks for too much memory. The binder
rules out the first (`Expr.Bound`); `Expr.Safe` follows evaluation to the others. `Meets p x P`: a
value of `x` has `P`, and `x` keeps the promises of `p`; `KeepsWhen` says exactly when it does.
-/

namespace StrataDb.Sql

open ByteCodec

/-! ### Computations that do not panic -/

/-- The error is no report of a column out of bounds, nor of bytes that are no row, if
    that is promised. -/
def QueryError.InScope (inScope : Prop) : QueryError → Prop
  | .internal msg => inScope → ¬ "column index ".toList <+: msg.toList
  | .codec (.decode _) => ¬ inScope
  | _ => True

/-- The panics of an evaluation whose calls have their arguments. -/
def evalPanics : List String :=
  ["`NaiveDate + TimeDelta` overflowed", "timestamp micros in range",
    "attempt to multiply with overflow", "capacity overflow"]

/-- What is promised of a computation. -/
structure Promise where
  noPanic : Prop
  inScope : Prop

/-- A value the computation returns has `P`, and it keeps its promises. -/
def Meets {α : Type} (p : Promise) (x : Outcome α) (P : α → Prop) : Prop :=
  match x with
  | .ok a => P a
  | .error (.error e) => e.InScope p.inScope
  | .error (.panicked msg) => ¬ p.noPanic ∧ msg ∈ evalPanics

/-- The computation keeps its promises, whatever value it returns. -/
abbrev Keeps {α : Type} (p : Promise) (x : Outcome α) : Prop := Meets p x fun _ => True

/-- It keeps them in exactly one case: where it promised not to panic, `safe` holds. -/
def KeepsWhen {α : Type} (p : Promise) (x : Outcome α) (safe : Prop) : Prop :=
  Keeps p x ↔ (p.noPanic → safe)

section Meets

variable {α β : Type} {p : Promise} {x : Outcome α} {f : α → Outcome β}
variable {P P' : α → Prop} {Q : β → Prop}

theorem Meets.bind (hx : Meets p x P) (hf : ∀ a, P a → Meets p (f a) Q) : Meets p (x >>= f) Q := by
  match x, hx with
  | .ok a, ha => exact hf a ha
  | .error (.error _), h => exact h
  | .error (.panicked _), h => exact h

theorem Meets.mono (hx : Meets p x P) (h : ∀ a, P a → P' a) : Meets p x P' := by
  match x, hx with
  | .ok a, ha => exact h a ha
  | .error (.error _), h => exact h
  | .error (.panicked _), h => exact h

theorem Meets.of_ok (hx : Meets p x P) {a : α} (h : x = .ok a) : P a := by
  subst h
  exact hx

theorem Keeps.bind (hx : Keeps p x) (hf : ∀ a, Keeps p (f a)) : Keeps p (x >>= f) :=
  Meets.bind hx fun a _ => hf a

theorem keeps_noPanic : Keeps ⟨True, False⟩ x ↔ NoPanic x := by
  constructor
  · rintro hx msg rfl
    exact hx.1 trivial
  · intro h
    match x, h with
    | .ok _, _ => trivial
    | .error (.error e), _ =>
      show e.InScope False
      unfold QueryError.InScope
      split <;> simp
    | .error (.panicked msg), h => exact absurd rfl (h msg)

variable {safe : Prop}

theorem Keeps.when (hx : Keeps p x) (h : safe) : KeepsWhen p x safe :=
  ⟨fun _ _ => h, fun _ => hx⟩

theorem KeepsWhen.congr {safe' : Prop} (hx : KeepsWhen p x safe) (h : safe ↔ safe') :
    KeepsWhen p x safe' := by
  rwa [← propext h]

theorem keepsWhen_panicked {msg : String} (hmsg : msg ∈ evalPanics) (h : ¬ safe) :
    KeepsWhen p (panicked msg : Outcome α) safe :=
  ⟨fun hx hp => absurd hp hx.1, fun hsafe => ⟨fun hp => h (hsafe hp), hmsg⟩⟩

theorem KeepsWhen.bind {safe' : α → Prop} (hx : KeepsWhen p x safe)
    (hf : ∀ a, x = .ok a → KeepsWhen p (f a) (safe' a)) :
    KeepsWhen p (x >>= f) (safe ∧ ∀ a, x = .ok a → safe' a) := by
  match x, hx, hf with
  | .ok a, hx, hf =>
    have hsafe : p.noPanic → safe := hx.mp trivial
    constructor
    · rintro hkeeps hp
      refine ⟨hsafe hp, fun b hb => ?_⟩
      cases hb
      exact (hf a rfl).mp hkeeps hp
    · intro h
      exact (hf a rfl).mpr fun hp => (h hp).2 a rfl
  | .error (.error _), hx, _ =>
    exact ⟨fun hk hp => ⟨hx.mp hk hp, nofun⟩, fun h => hx.mpr fun hp => (h hp).1⟩
  | .error (.panicked _), hx, _ =>
    exact ⟨fun hk hp => ⟨hx.mp hk hp, nofun⟩, fun h => hx.mpr fun hp => (h hp).1⟩

/-- What follows keeps its promises. -/
theorem KeepsWhen.andThen (hx : KeepsWhen p x safe) (hf : ∀ a, Keeps p (f a)) :
    KeepsWhen p (x >>= f) safe :=
  (hx.bind fun a _ => (hf a).when trivial).congr (by simp)

theorem meets_orTypeError {msg : String} {o : Option α} (h : ∀ a, o = some a → P a) :
    Meets p (orTypeError msg o) P := by
  cases o with
  | none => trivial
  | some a => exact h a rfl

theorem meets_orCastErr {rt : Runtime} {v : Value} {target : String} {o : Option α}
    (h : ∀ a, o = some a → P a) : Meets p (orCastErr rt v target o) P := by
  cases o with
  | none => trivial
  | some a => exact h a rfl

end Meets

mutual

/-- Printing the value as text asks `chrono` for no day or time outside its calendar. -/
def Value.Prints (rt : Runtime) : Value → Prop
  | .date days => (rt.dateToString days).isSome
  | .timestamp micros => (rt.timestamptzToString micros).isSome
  | .array items => ItemsPrint rt items
  | _ => True

/-- The items are printed in turn, up to one that has no text. -/
def ItemsPrint (rt : Runtime) : List Value → Prop
  | [] => True
  | v :: vs => v.Prints rt ∧ ∀ s, concatStr rt v = .ok s → ItemsPrint rt vs

end

/-! ### Functions of values -/

section Values

variable {p : Promise} {rt : Runtime}

theorem cmpValues_cases (rt : Runtime) (a b : Value) :
    (∃ xs ys, a = .array xs ∧ b = .array ys ∧ cmpValues rt a b = cmpItems rt xs ys)
      ∨ Keeps p (cmpValues rt a b) := by
  by_cases h : ∃ xs ys, a = .array xs ∧ b = .array ys
  · obtain ⟨xs, ys, rfl, rfl⟩ := h
    exact Or.inl ⟨xs, ys, rfl, rfl, rfl⟩
  · right
    unfold cmpValues
    split
    · trivial
    split
    · trivial
    split
    · trivial
    split <;> first | trivial | exact absurd ⟨_, _, rfl, rfl⟩ h

mutual

theorem keeps_cmpValues (a b : Value) : Keeps p (cmpValues rt a b) := by
  rcases cmpValues_cases rt a b with ⟨xs, ys, rfl, rfl, heq⟩ | h
  · rw [heq]
    exact keeps_cmpItems xs ys
  · exact h
termination_by sizeOf a

theorem keeps_cmpItems (as bs : List Value) : Keeps p (cmpItems rt as bs) := by
  match as, bs with
  | [], _ => trivial
  | _ :: _, [] => trivial
  | x :: xs, y :: ys =>
    have hx := keeps_cmpValues x y
    rw [cmpItems]
    split
    · exact keeps_cmpItems xs ys
    · exact hx
termination_by sizeOf as

end

/-- What a function of `chrono` gives, or a panic. -/
theorem keepsWhen_calendar {o : Option String} {x : Outcome String}
    (hsome : ∀ s, o = some s → x = .ok s) {msg : String} (hnone : o = none → x = panicked msg)
    (h : msg ∈ evalPanics) : KeepsWhen p x (o.isSome = true) := by
  cases o with
  | some s =>
    rw [hsome s rfl]
    exact Keeps.when trivial rfl
  | none =>
    rw [hnone rfl]
    exact keepsWhen_panicked h (by simp)

mutual

theorem keepsWhen_concatStr : ∀ v : Value, KeepsWhen p (concatStr rt v) (v.Prints rt)
  | .date days => by
    refine keepsWhen_calendar (fun s hs => ?_) (fun hs => ?_)
      (by simp [evalPanics] : "`NaiveDate + TimeDelta` overflowed" ∈ evalPanics)
    · simp [concatStr, formatDate, hs]
    · simp [concatStr, formatDate, hs]
  | .timestamp micros => by
    refine keepsWhen_calendar (fun s hs => ?_) (fun hs => ?_)
      (by simp [evalPanics] : "timestamp micros in range" ∈ evalPanics)
    · simp [concatStr, formatTimestamptz, hs]
    · simp [concatStr, formatTimestamptz, hs]
  | .array items => by
    rw [concatStr]
    exact (keepsWhen_concatParts items).andThen fun _ => trivial
  | .null | .bool _ | .int16 _ | .int32 _ | .int64 _ | .text _ | .bytes _ | .json _ | .float32 _
  | .float64 _ | .numeric _ | .time _ | .uuid _ | .interval _ => Keeps.when trivial trivial

theorem keepsWhen_concatParts :
    ∀ vs : List Value, KeepsWhen p (concatParts rt vs) (ItemsPrint rt vs)
  | [] => Keeps.when trivial trivial
  | v :: vs =>
    (keepsWhen_concatStr v).bind fun _ _ => (keepsWhen_concatParts vs).andThen fun _ => trivial

end

theorem keeps_evalNeg (v : Value) : Keeps p (evalNeg rt v) := by
  cases v <;> first
    | trivial
    | exact (meets_orTypeError fun _ _ => trivial).bind fun _ _ => trivial

theorem keeps_evalAbs (v : Value) : Keeps p (evalAbs rt v) := by
  cases v <;> first
    | trivial
    | exact (meets_orTypeError fun _ _ => trivial).bind fun _ _ => trivial

/-- The operators `eval_arithmetic` is called with. -/
def BinaryOperator.IsArithmetic : BinaryOperator → Prop
  | .add | .sub | .mul | .div | .mod => True
  | _ => False

theorem keeps_orTypeError {α : Type} (msg : String) (r : Option α) (wrap : α → Value) :
    Keeps p (do return wrap (← orTypeError msg r) : Outcome Value) :=
  Keeps.bind (meets_orTypeError fun _ _ => trivial) fun _ => trivial

variable {op : BinaryOperator}

theorem keeps_intArith (hop : op.IsArithmetic) (a b : Int64) : Keeps p (intArith op a b) := by
  unfold intArith
  cases op <;> try exact hop.elim
  case div => dsimp only; split; trivial; exact keeps_orTypeError _ _ _
  case mod => dsimp only; split; trivial; exact keeps_orTypeError _ _ _
  all_goals exact keeps_orTypeError _ _ _

theorem keeps_decimalArith (hop : op.IsArithmetic) (a b : Decimal) :
    Keeps p (decimalArith rt op a b) := by
  unfold decimalArith
  cases op <;> try exact hop.elim
  case div => dsimp only; split; trivial; exact keeps_orTypeError _ _ _
  case mod => dsimp only; split; trivial; exact keeps_orTypeError _ _ _
  all_goals exact keeps_orTypeError _ _ _

theorem keeps_floatArith (hop : op.IsArithmetic) (a b : UInt64) :
    Keeps p (floatArith rt op a b) := by
  cases op <;> first | exact hop.elim | trivial | (dsimp only [floatArith]; split <;> trivial)

theorem keeps_evalArithmetic (hop : op.IsArithmetic) (lhs rhs : Value) :
    Keeps p (evalArithmetic rt op lhs rhs) := by
  unfold evalArithmetic
  split
  · exact keeps_intArith hop _ _
  split
  · exact keeps_floatArith hop _ _
  split
  · exact keeps_decimalArith hop _ _
  · trivial

/-- `||` prints its operands, if neither is `NULL` and the left one has a text. -/
def ConcatFits (rt : Runtime) (lhs rhs : Value) : Prop :=
  lhs.isNull = false → rhs.isNull = false →
    lhs.Prints rt ∧ ∀ s, concatStr rt lhs = .ok s → rhs.Prints rt

theorem keepsWhen_evalBinary (op : BinaryOperator) (lhs rhs : Value) :
    KeepsWhen p (evalBinary rt op lhs rhs) (op = .concat → ConcatFits rt lhs rhs) := by
  have hcmp : ∀ g : Ordering → Bool,
      Keeps p (do return .bool (g (← cmpValues rt lhs rhs)) : Outcome Value) :=
    fun _ => (keeps_cmpValues lhs rhs).bind fun _ => trivial
  by_cases hconcat : op = .concat
  · subst hconcat
    unfold evalBinary shortCircuit
    dsimp only
    cases hnull : lhs.isNull || rhs.isNull with
    | true =>
      refine Keeps.when trivial fun _ hl hr => ?_
      simp [hl, hr] at hnull
    | false =>
      have hboth := Bool.or_eq_false_iff.mp hnull
      refine KeepsWhen.congr ((keepsWhen_concatStr lhs).bind fun s _ =>
        (keepsWhen_concatStr rhs).andThen fun t => trivial) ?_
      simp [ConcatFits, hboth.1, hboth.2]
  · refine Keeps.when ?_ fun h => absurd h hconcat
    -- a short circuit, then a `NULL`, and only then the operator
    unfold evalBinary
    split
    · trivial
    split
    · trivial
    cases op
    case lt => exact hcmp Ordering.isLT
    case ltEq => exact hcmp Ordering.isLE
    case gt => exact hcmp Ordering.isGT
    case gtEq => exact hcmp Ordering.isGE
    case and =>
      dsimp only
      split
      · trivial
      · exact fun _ => by simp
    case or =>
      dsimp only
      split
      · trivial
      · exact fun _ => by simp
    case concat => exact absurd rfl hconcat
    case eq => trivial
    case notEq => trivial
    all_goals
      refine keeps_evalArithmetic ?_ lhs rhs
      trivial

theorem keeps_evalLike (v pattern : Value) (negated : Bool) :
    Keeps p (evalLike rt v pattern negated) := by
  unfold evalLike
  split <;> trivial

theorem keeps_evalSubstr (s start len : Value) : Keeps p (evalSubstr s start len) := by
  unfold evalSubstr
  split
  case h_4 =>
    refine Keeps.bind (meets_orTypeError fun _ _ => trivial) fun _ => ?_
    refine Keeps.bind (meets_orTypeError fun _ _ => trivial) fun _ => ?_
    dsimp only
    split <;> trivial
  all_goals trivial

theorem keeps_evalTrim (s chars : Value) (leading trailing : Bool) :
    Keeps p (evalTrim s chars leading trailing) := by
  unfold evalTrim
  split <;> trivial

theorem keeps_evalLength (v : Value) : Keeps p (evalLength rt v) := by
  cases v <;> trivial

theorem keeps_evalCase (v : Value) (upper : Bool) : Keeps p (evalCase rt v upper) := by
  cases v <;> trivial

theorem keeps_evalRound (v : Value) (mode : Rounding) : Keeps p (evalRound rt v mode) := by
  cases v <;> trivial

/-- The text a `REPEAT` of these arguments asks for has a size of memory. -/
def RepeatFits (s n : Value) : Prop :=
  ∀ text count, s = .text text → asI64 n = some count →
    text.utf8ByteSize * (max count.toInt 0).toNat < 2 ^ 63

theorem keepsWhen_evalRepeat (s n : Value) : KeepsWhen p (evalRepeat s n) (RepeatFits s n) := by
  unfold evalRepeat
  split
  · exact Keeps.when trivial (by simp [RepeatFits])
  · exact Keeps.when trivial (by simp [RepeatFits, asI64])
  next text hnull =>
    cases hcount : asI64 n with
    | none => exact Keeps.when trivial (by simp [RepeatFits, hcount])
    | some count =>
      show KeepsWhen p (if text.utf8ByteSize * (max count.toInt 0).toNat < 2 ^ 63 then _ else _) _
      split
      next h => exact Keeps.when trivial (by simpa [RepeatFits, hcount] using h)
      next h =>
        exact keepsWhen_panicked (by simp [evalPanics]) (by simpa [RepeatFits, hcount] using h)
  next htext _ => exact Keeps.when trivial fun text _ hs => absurd hs (htext text)

/-! ### Casts -/

theorem keeps_castToI64 (v : Value) : Keeps p (castToI64 rt v) := by
  cases v <;> first | trivial | exact meets_orCastErr fun _ _ => trivial

theorem keeps_castToF64 (v : Value) : Keeps p (castToF64 rt v) := by
  cases v <;> first | trivial | exact meets_orCastErr fun _ _ => trivial

theorem keeps_fitIntCast {α : Type} (n : Int64) (tryFrom : Int → Option α) (wrap : α → Value) :
    Keeps p (fitIntCast n tryFrom wrap) := by
  unfold fitIntCast
  split <;> trivial

theorem keeps_castToNumeric (v : Value) : Keeps p (castToNumeric rt v) := by
  cases v <;> first | trivial | exact keeps_orTypeError _ _ _

theorem keeps_castToBool (v : Value) : Keeps p (castToBool rt v) := by
  cases v
  case text s =>
    dsimp only [castToBool]
    split
    · trivial
    split <;> trivial
  all_goals trivial

theorem keepsWhen_castToText (v : Value) : KeepsWhen p (castToText rt v) (v.Prints rt) := by
  unfold castToText
  split
  · exact Keeps.when trivial trivial
  · exact Keeps.when trivial trivial
  · exact keepsWhen_concatStr v

/-- A cast to text prints the value, and one of a date to a timestamp needs its midnight. -/
def CastFits (rt : Runtime) : Value → LogicalType → Prop
  | v, .text => v.Prints rt
  | .date days, .timestamp => (fitI64 (days.toInt * MICROS_PER_DAY)).isSome
  | _, _ => True

theorem keepsWhen_castToTimestamp (v : Value) :
    KeepsWhen p (castToTimestamp rt v) (CastFits rt v .timestamp) := by
  cases v
  case date days =>
    rw [castToTimestamp, CastFits]
    cases fitI64 (days.toInt * MICROS_PER_DAY) with
    | some t => exact Keeps.when trivial rfl
    | none => exact keepsWhen_panicked (by simp [evalPanics]) (by simp)
  case text s => exact (keeps_orTypeError _ _ _).when trivial
  all_goals exact Keeps.when trivial trivial

theorem keepsWhen_evalCast (v : Value) (target : LogicalType) :
    KeepsWhen p (evalCast rt v target) (CastFits rt v target) := by
  unfold evalCast
  split
  next hnull =>
    cases v <;> exact Keeps.when trivial (by cases target <;> trivial)
  cases target
  case text => exact (keepsWhen_castToText v).andThen fun _ => trivial
  case timestamp => exact keepsWhen_castToTimestamp v
  all_goals refine Keeps.when ?_ (by cases v <;> trivial)
  case bool => exact keeps_castToBool v
  case int16 => exact (keeps_castToI64 v).bind fun n => keeps_fitIntCast n _ _
  case int32 => exact (keeps_castToI64 v).bind fun n => keeps_fitIntCast n _ _
  case int64 => exact (keeps_castToI64 v).bind fun _ => trivial
  case float32 => exact (keeps_castToF64 v).bind fun _ => trivial
  case float64 => exact (keeps_castToF64 v).bind fun _ => trivial
  case numeric => exact keeps_castToNumeric v
  all_goals
    cases v <;> first | trivial | exact keeps_orTypeError _ _ _

/-! ### Calls -/

/-- An operand: what evaluating it gives, and when that does not panic. -/
abbrev Operand := Outcome Value × Prop

/-- How a call asks for its arguments: the state after one more value, unless it stops
    there, and what the call needs of the value. -/
structure Asking where
  next : Option Value → Value → Option (Option Value)
  fits : Value → Prop

/-- All arguments, whatever their values. -/
def Asking.all : Asking := ⟨fun best _ => some best, fun _ => True⟩

/-- `GREATEST` and `LEAST` stop at a value they cannot compare with the best so far. -/
def Asking.extreme (rt : Runtime) (greatest : Bool) : Asking where
  next best v :=
    if v.isNull then
      some best
    else
      match best with
      | none => some (some v)
      | some cur => (takeExtreme rt greatest cur v).toOption.map some
  fits _ := True

/-- How each built-in asks: `COALESCE` up to the first value, `CONCAT` up to one that has no
    text, printing as it goes. -/
def ScalarFunc.asking (rt : Runtime) : ScalarFunc → Asking
  | .coalesce => ⟨fun best v => if v.isNull then some best else none, fun _ => True⟩
  | .greatest => .extreme rt true
  | .least => .extreme rt false
  | .concat => ⟨fun best v => (concatStr rt v).toOption.map fun _ => best, (·.Prints rt)⟩
  | _ => .all

/-- No operand that is asked for panics. -/
def Asking.Safe (asking : Asking) : Option Value → List Operand → Prop
  | _, [] => True
  | best, (outcome, safe) :: rest =>
    safe ∧ ∀ v, outcome = .ok v → asking.fits v
      ∧ ∀ best', asking.next best v = some best' → asking.Safe best' rest

/-- A call that does not panic: the arguments it asks for do not, and a `REPEAT` fits. -/
def CallSafe (rt : Runtime) (func : ScalarFunc) (args : List Operand) : Prop :=
  (func.asking rt).Safe none args
    ∧ (func = .repeat → ∀ s n, args.map Prod.fst = [.ok s, .ok n] → RepeatFits s n)

/-- Each operand is safe in exactly the case it says. -/
def AllKeep (p : Promise) (args : List Operand) : Prop :=
  ∀ arg ∈ args, KeepsWhen p arg.1 arg.2

variable {args : List Operand}

theorem AllKeep.tail {arg : Operand} (h : AllKeep p (arg :: args)) : AllKeep p args :=
  fun x hx => h x (List.mem_cons_of_mem _ hx)

theorem keepsWhen_takeExtreme {β : Type} (greatest : Bool) (cur v : Value) {f : Value → Outcome β}
    (safe : Option Value → Prop) (hf : ∀ w, KeepsWhen p (f w) (safe (some w))) :
    KeepsWhen p (takeExtreme rt greatest cur v >>= f)
      (∀ best, (takeExtreme rt greatest cur v).toOption.map some = some best → safe best) := by
  have htake : Keeps p (takeExtreme rt greatest cur v) :=
    (keeps_cmpValues cur v).bind fun _ => trivial
  refine ((htake.when trivial).bind fun w _ => hf w).congr ?_
  cases takeExtreme rt greatest cur v with
  | ok w => simp [Except.toOption]
  | error e => simp [Except.toOption]

theorem keepsWhen_evalExtreme (greatest : Bool) (h : AllKeep p args) (best : Option Value) :
    KeepsWhen p (evalExtreme rt greatest (args.map Prod.fst) best)
      ((Asking.extreme rt greatest).Safe best args) := by
  induction args generalizing best with
  | nil => exact Keeps.when trivial trivial
  | cons arg args ih =>
    refine (h arg List.mem_cons_self).bind fun v _ => ?_
    split
    next hnull => exact (ih h.tail best).congr (by simp [Asking.extreme, hnull])
    next hnull =>
      cases best with
      | none => exact (ih h.tail (some v)).congr (by simp [Asking.extreme, hnull])
      | some cur =>
        refine (keepsWhen_takeExtreme greatest cur v
          ((Asking.extreme rt greatest).Safe · args) fun w => ih h.tail (some w)).congr ?_
        simp [Asking.extreme, hnull]

theorem keepsWhen_evalCoalesce (h : AllKeep p args) :
    KeepsWhen p (evalCoalesce (args.map Prod.fst))
      ((ScalarFunc.coalesce.asking rt).Safe none args) := by
  induction args with
  | nil => exact Keeps.when trivial trivial
  | cons arg args ih =>
    refine (h arg List.mem_cons_self).bind fun v _ => ?_
    split
    next hnull => exact (ih h.tail).congr (by simp [ScalarFunc.asking, hnull])
    next hnull => exact Keeps.when trivial (by simp [ScalarFunc.asking, hnull])

theorem keepsWhen_evalConcat (h : AllKeep p args) (out : String) :
    KeepsWhen p (evalConcat rt (args.map Prod.fst) out)
      ((ScalarFunc.concat.asking rt).Safe none args) := by
  induction args generalizing out with
  | nil => exact Keeps.when trivial trivial
  | cons arg args ih =>
    refine (h arg List.mem_cons_self).bind fun v _ => ?_
    split
    next hnull =>
      have hv : v = .null := by
        cases v <;> first | rfl | cases hnull
      subst hv
      exact (ih h.tail out).congr
        (by simp [ScalarFunc.asking, Value.Prints, concatStr, Except.toOption])
    next =>
      refine ((keepsWhen_concatStr v).bind fun s _ => ih h.tail (out ++ s)).congr ?_
      cases hs : concatStr rt v with
      | ok s => simp [ScalarFunc.asking, Except.toOption, hs]
      | error e => simp [ScalarFunc.asking, Except.toOption, hs]

/-- How many arguments a built-in reads by position; 0 for those that take any number. -/
def ScalarFunc.arguments : ScalarFunc → Nat
  | .abs | .ceil | .floor | .round | .length | .upper | .lower => 1
  | .repeat | .nullif | .trimBoth | .trimLeading | .trimTrailing => 2
  | .substr => 3
  | .greatest | .least | .coalesce | .concat => 0

/-- A call of the built-in may have this many arguments. -/
def ScalarFunc.Takes (func : ScalarFunc) (n : Nat) : Prop :=
  func.arguments = 0 ∨ func.arguments = n

variable {a : Operand}

theorem keepsWhen_one (h : AllKeep p [a]) {f : Value → Outcome Value}
    (hf : ∀ v, Keeps p (f v)) : KeepsWhen p (a.1 >>= f) (Asking.all.Safe none [a]) :=
  ((h a (by simp)).andThen hf).congr (by simp [Asking.Safe, Asking.all])

variable {f : Value → Value → Outcome Value}

theorem keepsWhen_two {b : Operand} (h : AllKeep p [a, b])
    {safe : Value → Value → Prop} (hf : ∀ v w, KeepsWhen p (f v w) (safe v w)) :
    KeepsWhen p (a.1 >>= fun v => b.1 >>= f v) (Asking.all.Safe none [a, b]
      ∧ ∀ v w, a.1 = .ok v → b.1 = .ok w → safe v w) := by
  refine ((h a (by simp)).bind fun v _ => (h b (by simp)).bind fun w _ => hf v w).congr ?_
  simp only [Asking.Safe, Asking.all]
  grind

theorem keepsWhen_both {b : Operand} (h : AllKeep p [a, b]) (hf : ∀ v w, Keeps p (f v w)) :
    KeepsWhen p (a.1 >>= fun v => b.1 >>= f v) (Asking.all.Safe none [a, b]) :=
  (keepsWhen_two h fun v w => (hf v w).when trivial).congr (by simp)

theorem keepsWhen_three {b c : Operand} (h : AllKeep p [a, b, c])
    {f : Value → Value → Value → Outcome Value} (hf : ∀ u v w, Keeps p (f u v w)) :
    KeepsWhen p (a.1 >>= fun u => b.1 >>= fun v => c.1 >>= f u v)
      (Asking.all.Safe none [a, b, c]) :=
  ((h a (by simp)).bind fun u _ => (h b (by simp)).bind fun v _ =>
    (h c (by simp)).andThen (hf u v)).congr (by simp [Asking.Safe, Asking.all])

theorem keepsWhen_evalCall {func : ScalarFunc} {args : List Operand} (h : AllKeep p args)
    (hlen : func.Takes args.length) :
    KeepsWhen p (evalCall rt func (args.map Prod.fst)) (CallSafe rt func args) := by
  have hother : func ≠ .repeat → ∀ {x : Outcome Value},
      KeepsWhen p x ((func.asking rt).Safe none args) → KeepsWhen p x (CallSafe rt func args) :=
    fun hne _ hx => hx.congr (by simp [CallSafe, hne])
  have one : func.arguments = 1 → ∃ a, args = [a] := fun harity =>
    List.length_eq_one_iff.mp (by simpa [ScalarFunc.Takes, harity, eq_comm] using hlen)
  have two : func.arguments = 2 → ∃ a b, args = [a, b] := fun harity =>
    List.length_eq_two.mp (by simpa [ScalarFunc.Takes, harity, eq_comm] using hlen)
  cases func
  case greatest => exact hother (by simp) (keepsWhen_evalExtreme true h none)
  case least => exact hother (by simp) (keepsWhen_evalExtreme false h none)
  case coalesce => exact hother (by simp) (keepsWhen_evalCoalesce h)
  case concat => exact hother (by simp) (keepsWhen_evalConcat h "")
  case «repeat» =>
    obtain ⟨a, b, rfl⟩ := two rfl
    refine (keepsWhen_two h keepsWhen_evalRepeat).congr ?_
    simp [CallSafe, ScalarFunc.asking]
  case substr =>
    obtain ⟨a, b, c, rfl⟩ := List.length_eq_three.mp
      (by simpa [ScalarFunc.Takes, ScalarFunc.arguments, eq_comm] using hlen)
    exact hother (by simp) (keepsWhen_three h keeps_evalSubstr)
  case abs =>
    obtain ⟨a, rfl⟩ := one rfl
    exact hother (by simp) (keepsWhen_one h keeps_evalAbs)
  case length =>
    obtain ⟨a, rfl⟩ := one rfl
    exact hother (by simp) (keepsWhen_one h keeps_evalLength)
  case nullif =>
    obtain ⟨a, b, rfl⟩ := two rfl
    exact hother (by simp) (keepsWhen_both h fun v w => (trivial : Keeps p (evalNullif rt v w)))
  all_goals first
    | obtain ⟨a, rfl⟩ := one rfl
      exact hother (by simp) (keepsWhen_one h fun v => by first
        | exact keeps_evalRound v _
        | exact keeps_evalCase v _)
    | obtain ⟨a, b, rfl⟩ := two rfl
      exact hother (by simp) (keepsWhen_both h fun v w => keeps_evalTrim v w _ _)

/-- No condition up to the first that is true panics, nor does its result. -/
def FirstSafe : List (Operand × Operand) → Prop → Prop
  | [], otherwise => otherwise
  | (cond, result) :: branches, otherwise =>
    cond.2 ∧ ∀ v, cond.1 = .ok v →
      (v = .bool true → result.2) ∧ (v ≠ .bool true → FirstSafe branches otherwise)

theorem keepsWhen_firstBranch {branches : List (Operand × Operand)}
    (h : ∀ b ∈ branches, KeepsWhen p b.1.1 b.1.2 ∧ KeepsWhen p b.2.1 b.2.2)
    {otherwise : Outcome Value} {safe : Prop} (ho : KeepsWhen p otherwise safe) :
    KeepsWhen p (firstBranch (branches.map fun b => (b.1.1, b.2.1)) otherwise)
      (FirstSafe branches safe) := by
  induction branches with
  | nil => exact ho
  | cons b branches ih =>
    have hb := h b List.mem_cons_self
    refine hb.1.bind fun v _ => ?_
    split
    · exact hb.2.congr (by simp)
    next hfalse =>
      have hne : v ≠ .bool true := hfalse
      exact (ih fun c hc => h c (List.mem_cons_of_mem _ hc)).congr (by simp [hne])

theorem keepsWhen_collect (h : AllKeep p args) :
    KeepsWhen p (collect (args.map Prod.fst)) (Asking.all.Safe none args) := by
  induction args with
  | nil => exact Keeps.when trivial trivial
  | cons arg args ih =>
    refine KeepsWhen.congr ((h arg List.mem_cons_self).bind fun v _ =>
      (ih h.tail).andThen fun _ => trivial) ?_
    simp [Asking.Safe, Asking.all]

end Values

/-! ### Expressions -/

mutual

/-- `P` holds of the expression and of every expression inside it. -/
def Expr.All (P : Expr → Prop) : Expr → Prop
  | .column index => P (.column index)
  | .literal value => P (.literal value)
  | .binary op lhs rhs => P (.binary op lhs rhs) ∧ lhs.All P ∧ rhs.All P
  | .not input => P (.not input) ∧ input.All P
  | .call func args => P (.call func args) ∧ allExprs P args
  | .isNull expr negated => P (.isNull expr negated) ∧ expr.All P
  | .like expr pattern negated => P (.like expr pattern negated) ∧ expr.All P ∧ pattern.All P
  | .neg input => P (.neg input) ∧ input.All P
  | .case branches elseResult =>
    P (.case branches elseResult) ∧ allBranches P branches ∧ allElse P elseResult
  | .cast input target => P (.cast input target) ∧ input.All P
  | .array elements => P (.array elements) ∧ allExprs P elements

def allExprs (P : Expr → Prop) : List Expr → Prop
  | [] => True
  | e :: es => e.All P ∧ allExprs P es

def allBranches (P : Expr → Prop) : List (Expr × Expr) → Prop
  | [] => True
  | (cond, result) :: branches => cond.All P ∧ result.All P ∧ allBranches P branches

def allElse (P : Expr → Prop) : Option Expr → Prop
  | some e => e.All P
  | none => True

end

/-- What the binder sees to at each node: a column is one of the scope's, and a call has
    the arguments it reads. -/
def Expr.BoundNode (arity : Nat) : Expr → Prop
  | .column index => index < arity
  | .call func args => func.Takes args.length
  | _ => True

/-- An expression over `arity` columns as the binder makes it. -/
def Expr.Bound (arity : Nat) (e : Expr) : Prop :=
  e.All (Expr.BoundNode arity)

mutual

/-- Evaluation on the tuple reaches no panic: at every node it comes to, what is printed is
    in `chrono`'s calendar, the midnights fit a timestamp and the repeated texts fit memory. -/
def Expr.Safe (rt : Runtime) (tuple : Tuple) : Expr → Prop
  | .column _ | .literal _ => True
  | .not input | .neg input | .isNull input _ => input.Safe rt tuple
  | .binary op lhs rhs =>
    lhs.Safe rt tuple ∧ ∀ l, lhs.eval rt tuple = .ok l →
      rhs.Safe rt tuple ∧ ∀ r, rhs.eval rt tuple = .ok r → op = .concat → ConcatFits rt l r
  | .call func args => CallSafe rt func (operands rt tuple args)
  | .like expr pattern _ =>
    expr.Safe rt tuple ∧ ∀ v, expr.eval rt tuple = .ok v → pattern.Safe rt tuple
  | .case branches elseResult =>
    FirstSafe (branchOperands rt tuple branches) (elseSafe rt tuple elseResult)
  | .cast input target =>
    input.Safe rt tuple ∧ ∀ v, input.eval rt tuple = .ok v → CastFits rt v target
  | .array elements => Asking.all.Safe none (operands rt tuple elements)

def operands (rt : Runtime) (tuple : Tuple) : List Expr → List Operand
  | [] => []
  | e :: es => (e.eval rt tuple, e.Safe rt tuple) :: operands rt tuple es

def branchOperands (rt : Runtime) (tuple : Tuple) : List (Expr × Expr) → List (Operand × Operand)
  | [] => []
  | (cond, result) :: branches =>
    ((cond.eval rt tuple, cond.Safe rt tuple), (result.eval rt tuple, result.Safe rt tuple))
      :: branchOperands rt tuple branches

def elseSafe (rt : Runtime) (tuple : Tuple) : Option Expr → Prop
  | some e => e.Safe rt tuple
  | none => True

end

section Evaluation

variable {rt : Runtime} {p : Promise} {arity : Nat} {tuple : Tuple}

theorem operands_fst (es : List Expr) :
    (operands rt tuple es).map Prod.fst = outcomes rt tuple es := by
  induction es with
  | nil => rfl
  | cons e es ih => simp [operands, outcomes, ih]

theorem length_operands (es : List Expr) : (operands rt tuple es).length = es.length := by
  induction es with
  | nil => rfl
  | cons e es ih => simp [operands, ih]

theorem branchOperands_fst (branches : List (Expr × Expr)) :
    (branchOperands rt tuple branches).map (fun b => (b.1.1, b.2.1))
      = branchOutcomes rt tuple branches := by
  induction branches with
  | nil => rfl
  | cons b branches ih => simp [branchOperands, branchOutcomes, ih]

theorem keeps_column {index : Nat} (hwide : p.inScope → arity ≤ tuple.length) (h : index < arity) :
    Keeps p ((Expr.column index).eval rt tuple) := by
  rw [Expr.eval]
  cases hget : tuple[index]? with
  | some v => trivial
  | none =>
    intro hp
    have hout := List.getElem?_eq_none_iff.mp hget
    have hlen := hwide hp
    omega

theorem keeps_not (v : Value) : Keeps p (match v with
    | .null => return .null
    | .bool b => return .bool !b
    | other => internalError ("NOT expects Bool, got " ++ rt.debug other) : Outcome Value) := by
  cases v <;> first | trivial | exact fun _ => by simp

mutual

/-- **When evaluation keeps its promises**: it panics exactly where it reaches a node that
    is not safe, and it reports no column of the scope. -/
theorem keepsWhen_eval (hwide : p.inScope → arity ≤ tuple.length) : ∀ e : Expr, e.Bound arity →
    KeepsWhen p (e.eval rt tuple) (e.Safe rt tuple)
  | .column _, hb => (keeps_column hwide hb).when trivial
  | .literal _, _ => Keeps.when trivial trivial
  | .not input, hb => (keepsWhen_eval hwide input hb.2).andThen keeps_not
  | .binary op lhs rhs, hb =>
    (keepsWhen_eval hwide lhs hb.2.1).bind fun l _ =>
      (keepsWhen_eval hwide rhs hb.2.2).bind fun r _ => keepsWhen_evalBinary op l r
  | .call func args, hb => by
    have hcall := @keepsWhen_evalCall _ rt _ _ (allKeep_operands hwide args hb.2)
      (by rw [length_operands]; exact hb.1)
    rwa [operands_fst] at hcall
  | .isNull expr _, hb => (keepsWhen_eval hwide expr hb.2).andThen fun _ => trivial
  | .like expr pattern negated, hb =>
    (keepsWhen_eval hwide expr hb.2.1).bind fun v _ =>
      (keepsWhen_eval hwide pattern hb.2.2).andThen fun w => keeps_evalLike v w negated
  | .neg input, hb => (keepsWhen_eval hwide input hb.2).andThen keeps_evalNeg
  | .case branches elseResult, hb => by
    have hfirst := keepsWhen_firstBranch (allKeep_branchOperands hwide branches hb.2.1)
      (keepsWhen_elseOutcome hwide elseResult hb.2.2)
    rwa [branchOperands_fst] at hfirst
  | .cast input target, hb =>
    (keepsWhen_eval hwide input hb.2).bind fun v _ => keepsWhen_evalCast v target
  | .array elements, hb => by
    have hitems := keepsWhen_collect (allKeep_operands hwide elements hb.2)
    rw [operands_fst] at hitems
    exact hitems.andThen fun _ => trivial

theorem allKeep_operands (hwide : p.inScope → arity ≤ tuple.length) : ∀ es : List Expr,
    allExprs (Expr.BoundNode arity) es → AllKeep p (operands rt tuple es)
  | [], _ => nofun
  | e :: es, hb => by
    intro x hx
    rcases List.mem_cons.mp hx with rfl | hx
    · exact keepsWhen_eval hwide e hb.1
    · exact allKeep_operands hwide es hb.2 x hx

theorem allKeep_branchOperands (hwide : p.inScope → arity ≤ tuple.length) :
    ∀ branches : List (Expr × Expr), allBranches (Expr.BoundNode arity) branches →
      ∀ b ∈ branchOperands rt tuple branches, KeepsWhen p b.1.1 b.1.2 ∧ KeepsWhen p b.2.1 b.2.2
  | [], _ => by simp [branchOperands]
  | (cond, result) :: branches, hb => by
    intro b hmem
    rcases List.mem_cons.mp hmem with rfl | hmem
    · exact ⟨keepsWhen_eval hwide cond hb.1, keepsWhen_eval hwide result hb.2.1⟩
    · exact allKeep_branchOperands hwide branches hb.2.2 b hmem

theorem keepsWhen_elseOutcome (hwide : p.inScope → arity ≤ tuple.length) :
    ∀ elseResult : Option Expr, allElse (Expr.BoundNode arity) elseResult →
      KeepsWhen p (elseOutcome rt tuple elseResult) (elseSafe rt tuple elseResult)
  | none, _ => Keeps.when trivial trivial
  | some e, hb => keepsWhen_eval hwide e hb

end

end Evaluation

end StrataDb.Sql
