import Mathlib.Algebra.GroupWithZero.Nat
import Mathlib.Data.List.Infix

/-!
# Commands on a state, which may fail

`Observes P c r`: in every state with `P` the command gives `r` and keeps `P`. `Performs M c ws
r`: it does the writes `ws` one after the other and gives `r`, or is refused at one of them; `M`
relates an abstract state, which a write changes, to the command's states. Both go through
sequences, so what a function written with `do` performs is read off its text.
-/

namespace StrataDb.Commands

variable {σ ε α β : Type}

def Command (σ ε α : Type) : Type :=
  σ → Except ε α × σ

namespace Command

def lift (r : Except ε α) : Command σ ε α :=
  fun s => (r, s)

def andThen (c : Command σ ε α) (f : α → Command σ ε β) : Command σ ε β :=
  fun s =>
    match c s with
    | (.ok a, s) => f a s
    | (.error e, s) => (.error e, s)

end Command

instance commandMonad : Monad (Command σ ε) where
  pure a := .lift (.ok a)
  bind := .andThen

variable {f : α → Command σ ε β} {c : Command σ ε α}

theorem bind_apply_ok {s s' : σ} {a : α} (h : c s = (.ok a, s')) : (c >>= f) s = f a s' := by
  show Command.andThen c f s = _
  rw [Command.andThen, h]

theorem bind_apply_error {s s' : σ} {e : ε} (h : c s = (.error e, s')) :
    (c >>= f) s = (.error e, s') := by
  show Command.andThen c f s = _
  rw [Command.andThen, h]

section Reading

variable {P : σ → Prop}

/-- The command gives `r` and keeps `P`. -/
def Observes (P : σ → Prop) (c : Command σ ε α) (r : Except ε α) : Prop :=
  ∀ s, P s → ∃ s', c s = (r, s') ∧ P s'

theorem Observes.lift (r : Except ε α) : Observes P (Command.lift r) r :=
  fun s h => ⟨s, rfl, h⟩

theorem Observes.bind {r : Except ε α} {g : α → Except ε β} (hc : Observes P c r)
    (hf : ∀ a, r = .ok a → Observes P (f a) (g a)) : Observes P (c >>= f) (r >>= g) := by
  intro s hs
  obtain ⟨s', hrun, hs'⟩ := hc s hs
  cases r with
  | error e => exact ⟨s', bind_apply_error hrun, hs'⟩
  | ok a =>
    obtain ⟨s'', hrun', hs''⟩ := hf a rfl s' hs'
    exact ⟨s'', (bind_apply_ok hrun).trans hrun', hs''⟩

theorem Observes.bind_ok {a : α} {r : Except ε β}
    (hc : Observes P c (.ok a)) (hf : Observes P (f a) r) : Observes P (c >>= f) r := by
  intro s hs
  obtain ⟨s', hrun, hs'⟩ := hc s hs
  obtain ⟨s'', hrun', hs''⟩ := hf s' hs'
  exact ⟨s'', (bind_apply_ok hrun).trans hrun', hs''⟩

theorem Observes.bind_error {e : ε} (hc : Observes P c (.error e)) :
    Observes P (c >>= f) (.error e) := by
  intro s hs
  obtain ⟨s', hrun, hs'⟩ := hc s hs
  exact ⟨s', bind_apply_error hrun, hs'⟩

end Reading

section Writing

variable {A W : Type} {write : A → W → A} {cost : W → Nat} {refusal : ε → Prop}
  {M : Nat → A → σ → Prop} {a : A}
  {c : Command σ ε α} {ws : List W} {r : Except ε α}

/-- The command does the writes, as far as it is not refused one, and then gives `r`.  The
    number in `M` is the room the state has for writes, each of which has its cost. -/
def Performs (write : A → W → A) (cost : W → Nat) (refusal : ε → Prop) (M : Nat → A → σ → Prop)
    (a : A) (c : Command σ ε α) (ws : List W) (r : Except ε α) : Prop :=
  ∀ room s, M (room + (ws.map cost).sum) a s → ∃ done out s', c s = (out, s') ∧ done <+: ws
    ∧ M room (done.foldl write a) s' ∧ (done = ws ∧ out = r ∨ ∃ e, refusal e ∧ out = .error e)

/-- A state with room has less room too. -/
def Relaxes (M : Nat → A → σ → Prop) : Prop :=
  ∀ n n' a s, n ≤ n' → M n' a s → M n a s

theorem Performs.of_observes (h : ∀ room, Observes (M room a) c r) :
    Performs write cost refusal M a c [] r := by
  intro room s hs
  obtain ⟨s', hrun, hs'⟩ := h room s hs
  exact ⟨[], r, s', hrun, List.prefix_rfl, hs', Or.inl ⟨rfl, rfl⟩⟩

theorem Performs.lift (r : Except ε α) : Performs write cost refusal M a (Command.lift r) [] r :=
  .of_observes fun _ => .lift r

theorem Performs.bind_read {x : α} {r' : Except ε β} (hc : ∀ room, Observes (M room a) c (.ok x))
    (hf : Performs write cost refusal M a (f x) ws r') :
    Performs write cost refusal M a (c >>= f) ws r' := by
  intro room s hs
  obtain ⟨s', hrun, hs'⟩ := hc _ s hs
  rw [bind_apply_ok hrun]
  exact hf room s' hs'

theorem Performs.bind (hroom : Relaxes M) {x : α} {ws' : List W} {r' : Except ε β}
    (hc : Performs write cost refusal M a c ws (.ok x))
    (hf : Performs write cost refusal M (ws.foldl write a) (f x) ws' r') :
    Performs write cost refusal M a (c >>= f) (ws ++ ws') r' := by
  intro room s hs
  rw [List.map_append, List.sum_append, Nat.add_comm (ws.map cost).sum, ← Nat.add_assoc] at hs
  obtain ⟨done, out, s', hrun, hdone, hs', hout⟩ := hc _ s hs
  rcases hout with ⟨rfl, rfl⟩ | ⟨e, he, rfl⟩
  · obtain ⟨done', out, s'', hrun', hdone', hs'', hout⟩ := hf room s' hs'
    refine ⟨done ++ done', out, s'', (bind_apply_ok hrun).trans hrun',
      (List.prefix_append_right_inj done).mpr hdone',
      by rwa [List.foldl_append], ?_⟩
    exact hout.imp_left fun ⟨hall, heq⟩ => ⟨congrArg (done ++ ·) hall, heq⟩
  · exact ⟨done, .error e, s', bind_apply_error hrun, hdone.trans (List.prefix_append ws ws'),
      hroom _ _ _ _ (Nat.le_add_right ..) hs', Or.inr ⟨e, he, rfl⟩⟩

theorem Performs.forM (hroom : Relaxes M) {f : α → Command σ ε Unit} {w : α → W} (xs : List α)
    (h : ∀ x ∈ xs, ∀ a, Performs write cost refusal M a (f x) [w x] (.ok ())) :
    Performs write cost refusal M a (xs.forM f) (xs.map w) (.ok ()) := by
  induction xs generalizing a with
  | nil => exact .lift (.ok ())
  | cons x xs ih =>
    exact .bind hroom (h x List.mem_cons_self a) (ih fun y hy => h y (List.mem_cons_of_mem x hy))

end Writing

end StrataDb.Commands
