import Mathlib
import Lsfmgr.Machinery.Prog

/-!
# Machinery/Amid — a program that shares its state

A program makes calls on a state that others change, too: before its `n`-th call they do `others
n`.  A call is one step, so it sees a state the others have left and leaves one to them.  Every call
is logged with the state before and after it, and `Chained` says that nothing but the others and the
logged calls has changed the state.  Beside the shared state a program has notes of its own.
-/

namespace Machinery

variable {σ γ ε ε' α β : Type}

/-- A call: the shared state before and after it. -/
structure Call (σ : Type) where
  before : σ
  after : σ

/-- The call has not written. -/
def Call.Quiet (c : Call σ) : Prop := c.after = c.before

/-- The shared state, the calls made, and the notes. -/
structure Amid (σ γ : Type) where
  shared : σ
  log : List (Call σ) := []
  notes : γ

namespace Amid

/-- One call: `f n s` on the state `s` the others have left before the `n`-th call. -/
def call (others : ℕ → σ → σ) (f : ℕ → σ → Except ε α × σ) : Prog (Amid σ γ) ε α := fun a =>
  let before := others a.log.length a.shared
  let (r, after) := f a.log.length before
  (r, { a with shared := after, log := a.log ++ [⟨before, after⟩] })

/-- A note. -/
def jot (f : γ → γ) : Prog (Amid σ γ) ε Unit := fun a => (.ok (), { a with notes := f a.notes })

/-- `try m except e: …` where `p` says which exceptions are caught; `none` if one is. -/
def catching (p : ε → Bool) (m : Prog (Amid σ γ) ε α) : Prog (Amid σ γ) ε (Option α) :=
  Prog.handle (do let a ← m; pure (some a)) fun e => if p e then pure none else Prog.raise e

end Amid

namespace Amid

variable {p : ε → Bool} {m : Prog (Amid σ γ) ε α} {a a' : Amid σ γ}

theorem catching_ok {x : α} (h : m a = (.ok x, a')) : catching p m a = (.ok (some x), a') :=
  Prog.handle_ok (Prog.bind_ok h _) _

theorem catching_caught {e : ε} (h : m a = (.error e, a')) (hp : p e = true) :
    catching p m a = (.ok none, a') := by
  rw [catching, Prog.handle_error (Prog.bind_error h _), if_pos hp]
  rfl

end Amid

/-- **The state is what the others and the logged calls have made of `start`.** -/
inductive Chained (others : ℕ → σ → σ) (start : σ) : List (Call σ) → σ → Prop
  | nil : Chained others start [] start
  | call {log : List (Call σ)} {s : σ} (after : σ) : Chained others start log s →
      Chained others start (log ++ [⟨others log.length s, after⟩]) after

/-! ## Rules -/

namespace Prog.Triple

variable {others : ℕ → σ → σ} {P : Amid σ γ → Prop} {m : Prog (Amid σ γ) ε α}
  {Q : α → Amid σ γ → Prop} {E : ε → Amid σ γ → Prop}

/-- A call, from what it returns and from what it raises. -/
theorem call {f : ℕ → σ → Except ε α × σ}
    (h : ∀ a, P a → ∀ r after, f a.log.length (others a.log.length a.shared) = (r, after) →
      match r with
      | .ok x => Q x ⟨after, a.log ++ [⟨others a.log.length a.shared, after⟩], a.notes⟩
      | .error e => E e ⟨after, a.log ++ [⟨others a.log.length a.shared, after⟩], a.notes⟩) :
    Triple P (Amid.call others f) Q E := by
  intro a ha
  have hcall := h a ha _ _ rfl
  rcases hr : f a.log.length (others a.log.length a.shared) with ⟨r, after⟩
  rw [hr] at hcall
  have hrun : Amid.call others f a
      = (r, ⟨after, a.log ++ [⟨others a.log.length a.shared, after⟩], a.notes⟩) := by
    simp only [Amid.call, hr]
  rw [hrun]
  cases r with
  | ok x =>
    refine ⟨fun x' a' heq => ?_, fun e a' heq => (by cases heq)⟩
    obtain ⟨hx, rfl⟩ := Prod.mk.inj heq
    obtain rfl := Except.ok.inj hx
    exact hcall
  | error e =>
    refine ⟨fun x' a' heq => (by cases heq), fun e' a' heq => ?_⟩
    obtain ⟨he, rfl⟩ := Prod.mk.inj heq
    obtain rfl := Except.error.inj he
    exact hcall

theorem jot {f : γ → γ} {Q : Unit → Amid σ γ → Prop}
    (h : ∀ a, P a → Q () { a with notes := f a.notes }) :
    Triple P (Amid.jot f : Prog (Amid σ γ) ε Unit) Q E := by
  intro a ha
  refine ⟨fun u a' heq => ?_, fun e a' heq => (by cases heq)⟩
  obtain ⟨-, rfl⟩ := Prod.mk.inj heq
  exact h a ha

theorem catching {p : ε → Bool} {Q' : Option α → Amid σ γ → Prop} {E' : ε → Amid σ γ → Prop}
    (hm : Triple P m Q E) (hok : ∀ x a, Q x a → Q' (some x) a)
    (hcaught : ∀ e a, p e = true → E e a → Q' none a)
    (hraised : ∀ e a, p e = false → E e a → E' e a) :
    Triple P (Amid.catching p m) Q' E' := by
  refine (bind (R := Q') hm fun x => ret fun a => hok x a).handle fun e => ?_
  split
  case isTrue hp => exact ret fun a => hcaught e a hp
  case isFalse hp => exact raise fun a => hraised e a ((Bool.not_eq_true _).mp hp)

end Prog.Triple

end Machinery
