import Mathlib

/-!
# Machinery/History — what a log of events says about each of its events

A log grows at its end.  It is `Sound` when each event is justified by those before it, which one
event more has to be checked for alone (`sound_concat`).  `Since p q` says that `p` has happened and
`q` not since, the form in which a flag that `p` sets and `q` clears is read off the log
(`since_concat`).
-/

namespace Machinery

variable {ε : Type*}

/-- Every event of the log is justified by the events before it. -/
def Sound (J : List ε → ε → Prop) (log : List ε) : Prop :=
  ∀ before e after, log = before ++ e :: after → J before e

/-- An event with `p`, and none with `q` after it. -/
def Since (p q : ε → Prop) (log : List ε) : Prop :=
  ∃ before e after, log = before ++ e :: after ∧ p e ∧ ∀ x ∈ after, ¬ q x

variable {J : List ε → ε → Prop} {p q : ε → Prop} {log : List ε} {x : ε}

theorem sound_nil : Sound J [] := by
  intro before e after h
  simp at h

/-- Where an element of a log with one event more stands. -/
theorem concat_eq_append_cons {before after : List ε} {e : ε}
    (h : log ++ [x] = before ++ e :: after) :
    (before = log ∧ e = x ∧ after = []) ∨ ∃ rest, after = rest ++ [x] ∧
    log = before ++ e :: rest := by
  obtain rfl | ⟨rest, y, rfl⟩ := after.eq_nil_or_concat'
  · obtain ⟨rfl, hx⟩ := List.append_inj' h rfl
    exact .inl ⟨rfl, by simpa using hx.symm, rfl⟩
  · rw [← List.cons_append, ← List.append_assoc] at h
    obtain ⟨rfl, hx⟩ := List.append_inj' h rfl
    obtain rfl : x = y := by simpa using hx
    exact .inr ⟨rest, rfl, rfl⟩

theorem sound_concat : Sound J (log ++ [x]) ↔ Sound J log ∧ J log x := by
  constructor
  · refine fun h => ⟨fun before e after he => h before e (after ++ [x]) (by simp [he]), ?_⟩
    exact h log x [] rfl
  · rintro ⟨h, hx⟩ before e after he
    obtain ⟨rfl, rfl, -⟩ | ⟨rest, -, hlog⟩ := concat_eq_append_cons he
    · exact hx
    · exact h before e rest hlog

theorem Sound.of_mem (h : Sound J log) (hx : x ∈ log) :
    ∃ before after, log = before ++ x :: after ∧ J before x := by
  obtain ⟨before, after, rfl⟩ := List.append_of_mem hx
  exact ⟨before, after, rfl, h before x after rfl⟩

theorem not_since_nil : ¬ Since p q ([] : List ε) := by
  rintro ⟨before, e, after, h, -⟩
  simp at h

theorem since_concat : Since p q (log ++ [x]) ↔ p x ∨ ¬ q x ∧ Since p q log := by
  constructor
  · rintro ⟨before, e, after, h, hp, hq⟩
    obtain ⟨rfl, rfl, -⟩ | ⟨rest, rfl, hlog⟩ := concat_eq_append_cons h
    · exact .inl hp
    · refine .inr ⟨hq x (by simp), before, e, rest, hlog, hp, fun y hy => hq y (by simp [hy])⟩
  · rintro (hp | ⟨hq, before, e, after, rfl, hp, hafter⟩)
    · exact ⟨log, x, [], rfl, hp, by simp⟩
    · refine ⟨before, e, after ++ [x], by simp, hp, fun y hy => ?_⟩
      obtain hy | hy := List.mem_append.mp hy
      · exact hafter y hy
      · obtain rfl : y = x := by simpa using hy
        exact hq

end Machinery
