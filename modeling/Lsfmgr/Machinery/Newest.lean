import Mathlib

/-!
# Machinery/Newest — a register that keeps its newest write

Each write carries a stamp; a write with an older stamp than the one stored is refused, any other
replaces it.  What such a register holds depends only on which writes there were, not on the order
they came in, as long as the stamps are distinct (`newest_eq_some_iff`).
-/

namespace Machinery

variable {τ α : Type*} [LinearOrder τ]

/-- The register after one more write. -/
def newer (stored : Option (τ × α)) (w : τ × α) : Option (τ × α) :=
  match stored with
  | none => some w
  | some p => if w.1 < p.1 then some p else some w

/-- The register after a sequence of writes. -/
def newest (ws : List (τ × α)) : Option (τ × α) := ws.foldl newer none

@[simp] theorem newest_nil : newest ([] : List (τ × α)) = none := rfl

theorem newest_concat (ws : List (τ × α)) (w : τ × α) :
    newest (ws ++ [w]) = newer (newest ws) w := by
  simp [newest, List.foldl_append]

theorem newer_ne_none (stored : Option (τ × α)) (w : τ × α) : newer stored w ≠ none := by
  rcases stored with _ | p
  · exact Option.some_ne_none _
  · rw [newer]
    split <;> exact Option.some_ne_none _

theorem newest_eq_none {ws : List (τ × α)} : newest ws = none ↔ ws = [] := by
  constructor
  · intro h
    rcases List.eq_nil_or_concat ws with hnil | ⟨us, u, rfl⟩
    · exact hnil
    · rw [List.concat_eq_append, newest_concat] at h
      exact absurd h (newer_ne_none _ _)
  · rintro rfl
    rfl

/-- What is stored has been written, and nothing newer has. -/
theorem newest_spec {ws : List (τ × α)} {w : τ × α} (h : newest ws = some w) :
    w ∈ ws ∧ ∀ w' ∈ ws, w'.1 ≤ w.1 := by
  induction ws using List.reverseRecOn generalizing w with
  | nil => cases h
  | append_singleton ws v ih =>
    rw [newest_concat] at h
    rcases hs : newest ws with _ | p
    · obtain rfl : v = w := by simpa [newer, hs] using h
      obtain rfl := newest_eq_none.mp hs
      simp
    · obtain ⟨hmem, hmax⟩ := ih hs
      simp only [newer, hs] at h
      split at h
      case isTrue hlt =>
        obtain rfl := Option.some.inj h
        refine ⟨List.mem_append_left _ hmem, fun w' hw' => ?_⟩
        rcases List.mem_append.mp hw' with hw' | hw'
        · exact hmax w' hw'
        · obtain rfl := List.mem_singleton.mp hw'
          exact hlt.le
      case isFalse hge =>
        obtain rfl := Option.some.inj h
        refine ⟨by simp, fun w' hw' => ?_⟩
        rcases List.mem_append.mp hw' with hw' | hw'
        · exact (hmax w' hw').trans (not_lt.mp hge)
        · obtain rfl := List.mem_singleton.mp hw'
          exact le_rfl

/-- **With distinct stamps the register holds the write with the greatest one.** -/
theorem newest_eq_some_iff {ws : List (τ × α)} (hnd : (ws.map Prod.fst).Nodup) {w : τ × α} :
    newest ws = some w ↔ w ∈ ws ∧ ∀ w' ∈ ws, w'.1 ≤ w.1 := by
  refine ⟨newest_spec, fun ⟨hmem, hmax⟩ => ?_⟩
  rcases h : newest ws with _ | v
  · rw [newest_eq_none.mp h] at hmem
    cases hmem
  · obtain ⟨hv, hvmax⟩ := newest_spec h
    have hstamp : v.1 = w.1 := le_antisymm (hmax v hv) (hvmax w hmem)
    rw [List.inj_on_of_nodup_map hnd hv hmem hstamp]

end Machinery
