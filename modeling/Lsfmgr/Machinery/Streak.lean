import Mathlib

/-!
# Machinery/Streak — how many of the latest observations have a property

A history is a list with the latest observation first.  The streak of a property is the number of
observations it holds of, counted from the latest back to the first one it fails of.  A counter that
is raised by one while the property holds and starts again when it fails is the streak
(`streak_cons_of_pos`, `streak_cons_of_neg`); reaching a bound is a statement on the latest
observations alone (`le_streak`).
-/

namespace Machinery

variable {α : Type*} {p : α → Prop}

open Classical in
/-- The length of the streak of `p` at the front of the history. -/
noncomputable def streak (p : α → Prop) (history : List α) : ℕ :=
  (history.takeWhile fun a => decide (p a)).length

@[simp] theorem streak_nil : streak p [] = 0 := rfl

/-- A further observation prolongs the streak, or ends it. -/
theorem streak_cons_of_pos {a : α} {l : List α} (h : p a) : streak p (a :: l) = streak p l + 1 := by
  simp [streak, h]

theorem streak_cons_of_neg {a : α} {l : List α} (h : ¬p a) : streak p (a :: l) = 0 := by
  simp [streak, h]

/-- **A streak has reached `n` when `p` holds of the latest `n` observations.** -/
theorem le_streak {n : ℕ} {l : List α} :
    n ≤ streak p l ↔ n ≤ l.length ∧ ∀ a ∈ l.take n, p a := by
  induction l generalizing n with
  | nil => simp
  | cons b l ih =>
    rcases n with _ | n
    · simp
    · by_cases hb : p b
      · rw [streak_cons_of_pos hb]
        simp [hb, ih]
      · rw [streak_cons_of_neg hb]
        simp [hb]

/-- Without an observation that has the property there is no streak. -/
theorem streak_eq_zero {l : List α} (h : ∀ a ∈ l, ¬p a) : streak p l = 0 := by
  rcases l with _ | ⟨a, l⟩
  · rfl
  · exact streak_cons_of_neg (h a List.mem_cons_self)

end Machinery
