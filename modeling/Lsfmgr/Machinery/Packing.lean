import Mathlib

/-!
# Machinery/Packing — cutting a list into chunks, each as long as it may be

A packing of a list under a bound `ok` on chunks is what a greedy loop makes: the chunks are not
empty, each is within the bound, and none could have taken the next one's first item.  If the bound
is kept by the front part of a chunk there is only one packing (`Packing.unique`), so two loops that
differ in their bounds make the same chunks as soon as those of the laxer one are within the
stricter bound.
-/

namespace Machinery

variable {α : Type*}

/-- The chunks are as a greedy loop cuts them. -/
structure Packing (ok : List α → Prop) (chunks : List (List α)) : Prop where
  ne_nil : ∀ c ∈ chunks, c ≠ []
  within : ∀ c ∈ chunks, ok c
  full : chunks.IsChain fun c d => ∀ x ∈ d.head?, ¬ ok (c ++ [x])

namespace Packing

variable {ok ok' : List α → Prop}

theorem nil : Packing ok [] := ⟨by simp, by simp, .nil⟩

theorem singleton {c : List α} (hne : c ≠ []) (hok : ok c) : Packing ok [c] :=
  ⟨by simpa using hne, by simpa using hok, .singleton c⟩

theorem cons {c : List α} {cs : List (List α)} (hne : c ≠ []) (hok : ok c)
    (hfull : ∀ d ∈ cs.head?, ∀ x ∈ d.head?, ¬ ok (c ++ [x])) (h : Packing ok cs) :
    Packing ok (c :: cs) where
  ne_nil := List.forall_mem_cons.mpr ⟨hne, h.ne_nil⟩
  within := List.forall_mem_cons.mpr ⟨hok, h.within⟩
  full := List.isChain_cons.mpr ⟨hfull, h.full⟩

theorem tail {c : List α} {cs : List (List α)} (h : Packing ok (c :: cs)) : Packing ok cs :=
  ⟨fun d hd => h.ne_nil d (List.mem_cons_of_mem _ hd),
    fun d hd => h.within d (List.mem_cons_of_mem _ hd), h.full.tail⟩

/-- The first chunk of one packing is not a proper front part of the first chunk of another. -/
theorem eq_nil_of_append {c a : List α} {cs ds : List (List α)} (hpre : ∀ c d, ok (c ++ d) → ok c)
    (hc : Packing ok (c :: cs)) (hd : ok (c ++ a)) (ha : cs.flatten = a ++ ds.flatten) :
    a = [] := by
  cases a with
  | nil => rfl
  | cons x a =>
    cases cs with
    | nil => simp at ha
    | cons e cs =>
      have hx : x ∈ e.head? := by
        cases e with
        | nil => exact absurd rfl (hc.ne_nil [] (by simp))
        | cons y e =>
          simp only [List.flatten_cons, List.cons_append, List.cons.injEq] at ha
          simp [ha.1]
      have hfull := (List.isChain_cons.mp hc.full).1 e (by simp) x hx
      exact absurd (hpre (c ++ [x]) a (by simpa using hd)) hfull

/-- **There is one packing of a list.** -/
theorem unique (hpre : ∀ c d, ok (c ++ d) → ok c) : ∀ {cs ds : List (List α)}, Packing ok cs →
    Packing ok ds → cs.flatten = ds.flatten → cs = ds
  | [], [], _, _, _ => rfl
  | [], d :: ds, _, hd, h => absurd (by simp at h; exact h.1.symm ▸ rfl) (hd.ne_nil d (by simp))
  | c :: cs, [], hc, _, h => absurd (by simp at h; exact h.1 ▸ rfl) (hc.ne_nil c (by simp))
  | c :: cs, d :: ds, hc, hd, h => by
      simp only [List.flatten_cons] at h
      have hcd : c = d := by
        rcases List.append_eq_append_iff.mp h with ⟨a, rfl, ha⟩ | ⟨a, rfl, ha⟩
        · rw [eq_nil_of_append hpre hc (hd.within _ (by simp)) ha, List.append_nil]
        · rw [eq_nil_of_append hpre hd (hc.within _ (by simp)) ha, List.append_nil]
      subst hcd
      rw [unique hpre hc.tail hd.tail (List.append_cancel_left h)]

end Packing

end Machinery
