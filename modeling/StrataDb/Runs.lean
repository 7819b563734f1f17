import Mathlib.Tactic

/-!
# Runs of a labelled transition system, and steps that may fail

`Run Step s es t`: the events `es` lead from `s` to `t`. Histories grow at the end, so a
specification that is a function of the history can be carried along an induction (`Run.history`).
A step that may fail is taken apart by `bind_eq_ok`, `map_eq_ok` and `mapError_eq_ok`.
-/

namespace StrataDb.Runs

variable {S E : Type} {Step Step' : S → E → S → Prop} {s t u : S} {es : List E} {e : E}

/-- The events `es` lead from `s` to the last argument. -/
inductive Run (Step : S → E → S → Prop) (s : S) : List E → S → Prop
  | nil : Run Step s [] s
  | snoc {es : List E} {t u : S} {e : E} :
      Run Step s es t → Step t e u → Run Step s (es ++ [e]) u

/-- **The invariant rule.**  `P` relates the events so far to the state they lead
    to; it holds at the start and every step carries it on. -/
theorem Run.history {P : List E → S → Prop} (hstart : P [] s)
    (hstep : ∀ es t e u, P es t → Step t e u → P (es ++ [e]) u) (h : Run Step s es t) : P es t := by
  induction h with
  | nil => exact hstart
  | snoc _ hlast ih => exact hstep _ _ _ _ ih hlast

theorem Run.mono (himp : ∀ t e u, Step t e u → Step' t e u) (h : Run Step s es t) :
    Run Step' s es t := by
  induction h with
  | nil => exact .nil
  | snoc _ hlast ih => exact ih.snoc (himp _ _ _ hlast)

section Outcomes

variable {ε ε' α β : Type}

theorem bind_eq_ok {x : Except ε α} {f : α → Except ε β} {b : β} :
    (x >>= f) = .ok b ↔ ∃ a, x = .ok a ∧ f a = .ok b := by
  cases x with
  | error e => simp [bind, Except.bind]
  | ok a => simp [bind, Except.bind]

@[simp] theorem mapError_eq_ok {x : Except ε α} {f : ε → ε'} {a : α} :
    x.mapError f = .ok a ↔ x = .ok a := by
  cases x with
  | error e => simp [Except.mapError]
  | ok b => simp [Except.mapError]

theorem map_eq_ok {x : Except ε α} {f : α → β} {b : β} :
    x.map f = .ok b ↔ ∃ a, x = .ok a ∧ f a = b := by
  cases x with
  | error e => simp [Except.map]
  | ok a => simp [Except.map]

end Outcomes

end StrataDb.Runs
