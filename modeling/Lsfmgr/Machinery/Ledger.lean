import Mathlib
import Lsfmgr.Machinery.Dict

/-!
# Machinery/Ledger — a table of lists whose items are removed by identity

An item is added at the end of the list of its key; removing it takes out the first item of that
list that is the same object, and drops the key with its last item.  A key without an entry and one
with the empty list are the same to every reader (`Dict.listAt`).
-/

namespace Machinery

variable {κ α : Type*} [DecidableEq κ]

/-- The list at a key. -/
def Dict.listAt (t : Dict κ (List α)) (k : κ) : List α := (t.get? k).getD []

/-- `ledger_add` -/
def ledgerAdd (t : Dict κ (List α)) (k : κ) (a : α) : Dict κ (List α) :=
  t.set k (t.listAt k ++ [a])

/-- `ledger_remove`, of the first item that `same` recognises. -/
def ledgerRemove (t : Dict κ (List α)) (k : κ) (same : α → Bool) : Dict κ (List α) :=
  match t.get? k with
  | none | some [] => t
  | some (a :: l) =>
    let rest := (a :: l).eraseP same
    if rest = [] then t.erase k else t.set k rest

@[simp] theorem listAt_empty (k : κ) : (∅ : Dict κ (List α)).listAt k = [] := rfl

theorem listAt_ledgerAdd (t : Dict κ (List α)) (k k' : κ) (a : α) :
    (ledgerAdd t k a).listAt k' = if k' = k then t.listAt k ++ [a] else t.listAt k' := by
  rw [ledgerAdd, Dict.listAt, Dict.get?_set]
  split <;> rfl

theorem listAt_ledgerRemove (t : Dict κ (List α)) (k k' : κ) (same : α → Bool) :
    (ledgerRemove t k same).listAt k'
      = if k' = k then (t.listAt k).eraseP same else t.listAt k' := by
  rw [ledgerRemove]
  split
  case h_1 h =>
    split
    case isTrue hk => subst hk; simp [Dict.listAt, h]
    case isFalse => rfl
  case h_2 h =>
    split
    case isTrue hk => subst hk; simp [Dict.listAt, h]
    case isFalse => rfl
  case h_3 a l h =>
    have hlist : t.listAt k = a :: l := by simp [Dict.listAt, h]
    rw [hlist]
    dsimp only
    split
    case isTrue hnil =>
      rw [Dict.listAt, Dict.get?_erase]
      split
      case isTrue => rw [hnil]; rfl
      case isFalse => rfl
    case isFalse =>
      rw [Dict.listAt, Dict.get?_set]
      split <;> rfl

/-- Taking out the item itself, when nothing else passes for it. -/
theorem coe_eraseP_eq_erase [DecidableEq α] {l : List α} {a : α} {same : α → Bool}
    (ha : same a = true) (hl : ∀ b ∈ l, same b = true → b = a) :
    (l.eraseP same : Multiset α) = (l : Multiset α).erase a := by
  rw [Multiset.coe_erase]
  congr 1
  induction l with
  | nil => rfl
  | cons b l ih =>
    rw [List.eraseP_cons, List.erase_cons]
    by_cases hb : same b = true
    · have : b = a := hl b List.mem_cons_self hb
      simp [this, ha]
    · have hne : b ≠ a := fun h => hb (h ▸ ha)
      simp [hb, hne, ih fun c hc => hl c (List.mem_cons_of_mem _ hc)]

end Machinery
