import Mathlib.Tactic

/-!
# Redoing writes

Redoing a log of whole values gives a store that depends on the old one only at the places the log
does not name (`redo_congr`), so it does not matter what a crash left at the others.
-/

namespace StrataDb.RedoLog

variable {α β : Type} [DecidableEq α] {f g : α → β} {ws : List (α × β)} {a : α}

/-- The store after the writes of the log, in order. -/
def redo (f : α → β) (ws : List (α × β)) : α → β :=
  ws.foldl (fun f w => Function.update f w.1 w.2) f

@[simp] theorem redo_cons (w : α × β) :
    redo f (w :: ws) = redo (Function.update f w.1 w.2) ws := rfl

/-- **Redoing does not look at what it overwrites.** -/
theorem redo_congr (h : a ∉ ws.map Prod.fst → f a = g a) : redo f ws a = redo g ws a := by
  induction ws generalizing f g with
  | nil => exact h (by simp)
  | cons w ws ih =>
    rw [redo_cons, redo_cons]
    refine ih fun ha => ?_
    rw [Function.update_apply, Function.update_apply]
    split_ifs with hw
    · rfl
    · exact h (by simpa [hw] using ha)

theorem redo_of_notMem (h : a ∉ ws.map Prod.fst) : redo f ws a = f a := by
  induction ws generalizing f with
  | nil => rfl
  | cons w ws ih =>
    rw [List.map_cons, List.mem_cons, not_or] at h
    rw [redo_cons, ih h.2, Function.update_of_ne h.1]

end StrataDb.RedoLog
