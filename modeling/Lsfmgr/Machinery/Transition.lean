import Mathlib

/-!
# Machinery/Transition — labelled transition systems, their runs and their invariants

A system is given by its initial states and a *partial* step function: `step s a = none` where the
action `a` cannot be taken in `s`.  A property of every reachable state is proved once, by
`ReachableUnder.invariant`: it holds initially and every step keeps it.

`ReachableUnder C` is reachability along the runs whose steps all meet `C` — the form in which a
program that is right only under a condition on its steps is stated.
-/

namespace Machinery

/-- A labelled transition system with a partial step function. -/
structure System (σ α : Type*) where
  init : σ → Prop
  step : σ → α → Option σ

namespace System

variable {σ α : Type*} (S : System σ α)

/-- The states reached by a run whose every step `a`, taken in `s`, meets `C s a`. -/
inductive ReachableUnder (C : σ → α → Prop) : σ → Prop
  | init {s : σ} : S.init s → ReachableUnder C s
  | step {s s' : σ} {a : α} : ReachableUnder C s → C s a → S.step s a = some s' →
      ReachableUnder C s'

/-- The states reached by any run. -/
abbrev Reachable : σ → Prop := S.ReachableUnder fun _ _ => True

/-- The state a list of actions leads to, if each of them can be taken. -/
def run (s : σ) : List α → Option σ
  | [] => some s
  | a :: as => (S.step s a).bind fun s' => run s' as

variable {S} {C : σ → α → Prop}

/-- **The invariant rule**: what holds initially and is kept by every step that meets `C` holds in
every state reached under `C`.  A step may use that its source is itself reached. -/
theorem ReachableUnder.invariant {I : σ → Prop} (hinit : ∀ s, S.init s → I s)
    (hstep : ∀ s a s', S.ReachableUnder C s → I s → C s a → S.step s a = some s' → I s')
    {s : σ} (h : S.ReachableUnder C s) : I s := by
  induction h with
  | init h => exact hinit _ h
  | step hr hc hs ih => exact hstep _ _ _ hr ih hc hs

/-- A run under a condition is a run under any weaker one. -/
theorem ReachableUnder.mono {C' : σ → α → Prop} (hC : ∀ s a, C s a → C' s a) {s : σ}
    (h : S.ReachableUnder C s) : S.ReachableUnder C' s := by
  induction h with
  | init h => exact .init h
  | step _ hc hs ih => exact .step ih (hC _ _ hc) hs

theorem ReachableUnder.reachable {s : σ} (h : S.ReachableUnder C s) : S.Reachable s :=
  h.mono fun _ _ _ => trivial

/-- What a computed run ends in is reachable. -/
theorem reachable_of_run : ∀ {as : List α} {s s' : σ}, S.Reachable s → S.run s as = some s' →
    S.Reachable s'
  | [], _, _, h, hr => Option.some.inj hr ▸ h
  | a :: as, s, s', h, hr => by
      rw [run, Option.bind_eq_some_iff] at hr
      obtain ⟨t, hs, hr⟩ := hr
      exact reachable_of_run (.step h trivial hs) hr

/-- A run in which every source state and action satisfy the decidable test `c` is a run
under `C`. -/
def runUnder (S : System σ α) (c : σ → α → Bool) (s : σ) : List α → Option σ
  | [] => some s
  | a :: as => if c s a then (S.step s a).bind fun s' => runUnder S c s' as else none

theorem reachableUnder_of_runUnder {c : σ → α → Bool} (hc : ∀ s a, c s a = true → C s a) :
    ∀ {as : List α} {s s' : σ}, S.ReachableUnder C s → S.runUnder c s as = some s' →
      S.ReachableUnder C s'
  | [], _, _, h, hr => Option.some.inj hr ▸ h
  | a :: as, s, s', h, hr => by
      rw [runUnder] at hr
      split at hr
      case isTrue ha =>
        rw [Option.bind_eq_some_iff] at hr
        obtain ⟨t, hs, hr⟩ := hr
        exact reachableUnder_of_runUnder hc (.step h (hc _ _ ha) hs) hr
      case isFalse => cases hr

end System

end Machinery
