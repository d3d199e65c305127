import Mathlib
import Lsfmgr.Machinery.Dict

/-!
# Machinery/Tally — a dictionary of counts without zeros

A table that counts how many there are of each kind, and drops a kind with its last one.  `Tally d
f` says that the table has the counts `f`; counting one in (`countUp`) and counting one out
(`countDown`) move `f` at one key.
-/

namespace Machinery

variable {κ : Type*} [DecidableEq κ] {d : Dict κ ℕ} {f g : κ → ℕ} {k : κ}

/-- The table has the counts `f`, and no entry where the count is zero. -/
def Tally (d : Dict κ ℕ) (f : κ → ℕ) : Prop :=
  ∀ k, d.get? k = if f k = 0 then none else some (f k)

/-- One more at `k`. -/
def Dict.countUp (d : Dict κ ℕ) (k : κ) : Dict κ ℕ := d.set k ((d.get? k).getD 0 + 1)

/-- One less at `k`, where there are `n`. -/
def Dict.countDown (d : Dict κ ℕ) (k : κ) (n : ℕ) : Dict κ ℕ :=
  if n - 1 = 0 then d.erase k else d.set k (n - 1)

namespace Tally

theorem empty : Tally (∅ : Dict κ ℕ) fun _ => 0 := fun _ => rfl

theorem congr (h : Tally d f) (hfg : ∀ k, g k = f k) : Tally d g := fun k => by rw [hfg k, h k]

theorem getD (h : Tally d f) (k : κ) : (d.get? k).getD 0 = f k := by
  rw [h k]
  split
  case isTrue hz => rw [hz]; rfl
  case isFalse => rfl

theorem get?_eq_some (h : Tally d f) {n : ℕ} : d.get? k = some n ↔ f k = n ∧ n ≠ 0 := by
  rw [h k]
  split
  case isTrue hz =>
    constructor
    · intro hn
      cases hn
    · rintro ⟨rfl, hn⟩
      exact absurd hz hn
  case isFalse hz =>
    rw [Option.some_inj]
    constructor
    · rintro rfl
      exact ⟨rfl, hz⟩
    · exact And.left

/-- A count that is set, and not to zero. -/
theorem set (h : Tally d f) {n : ℕ} (hn : n ≠ 0) (hk : g k = n)
    (hother : ∀ k', k' ≠ k → g k' = f k') : Tally (d.set k n) g := by
  intro k'
  rw [Dict.get?_set]
  split
  case isTrue heq => subst heq; rw [hk, if_neg hn]
  case isFalse hne => rw [h k', hother k' hne]

/-- A count that has come down to zero. -/
theorem erase (h : Tally d f) (hk : g k = 0) (hother : ∀ k', k' ≠ k → g k' = f k') :
    Tally (d.erase k) g := by
  intro k'
  rw [Dict.get?_erase]
  split
  case isTrue heq => subst heq; rw [if_pos hk]
  case isFalse hne => rw [h k', hother k' hne]

theorem countUp (h : Tally d f) (hk : g k = f k + 1) (hother : ∀ k', k' ≠ k → g k' = f k') :
    Tally (d.countUp k) g :=
  h.set (Nat.succ_ne_zero _) (by rw [hk, h.getD]) hother

theorem countDown (h : Tally d f) (hk : f k = g k + 1) (hother : ∀ k', k' ≠ k → g k' = f k') :
    Tally (d.countDown k (f k)) g := by
  have hn : f k - 1 = g k := by omega
  rw [Dict.countDown, hn]
  split
  case isTrue hz => exact h.erase hz hother
  case isFalse hz => exact h.set hz rfl hother

/-- Counting in each of a list. -/
theorem foldl_countUp (h : Tally d f) (ks : List κ) :
    Tally (ks.foldl Dict.countUp d) fun k => f k + ks.count k := by
  induction ks generalizing d f with
  | nil => exact h
  | cons k ks ih =>
    have hone : Tally (d.countUp k) fun k' => f k' + [k].count k' :=
      h.countUp (by simp) fun k' hne => by simp [Ne.symm hne]
    refine (ih hone).congr fun k' => ?_
    rw [List.count_cons, List.count_singleton]
    omega

/-- A table without counts has no entries. -/
theorem eq_empty (h : Tally d f) (hf : ∀ k, f k = 0) : d = ∅ := by
  have hkeys : d.keys = [] := by
    refine List.eq_nil_iff_forall_not_mem.mpr fun k hk => ?_
    obtain ⟨n, hn⟩ := Dict.mem_keys.mp hk
    obtain ⟨rfl, hn⟩ := h.get?_eq_some.mp hn
    exact hn (hf k)
  exact Dict.ext_entries (List.map_eq_nil_iff.mp hkeys)

end Tally

end Machinery
