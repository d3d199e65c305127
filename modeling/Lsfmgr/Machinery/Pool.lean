import Mathlib

/-!
# Machinery/Pool — a list of threads in which one is replaced by what it becomes

A step of a concurrent program picks the thread at one index and puts in its place the threads it
turns into: itself at its next control point, nothing when it ends, itself and a new one when it
spawns.  Two facts carry every proof about such a pool: a member of the new pool is a member of the
old one or one of the replacements (`mem_replaceAt`), and any quantity summed over the pool moves by
exactly the difference at the replaced thread (`sum_replaceAt`).
-/

namespace Machinery

variable {τ : Type*}

/-- The list with the element at index `i` replaced by the elements of `ts`. -/
def replaceAt (l : List τ) (i : ℕ) (ts : List τ) : List τ := l.take i ++ ts ++ l.drop (i + 1)

theorem eq_take_cons_drop {l : List τ} {i : ℕ} {t : τ} (h : l[i]? = some t) :
    l = l.take i ++ t :: l.drop (i + 1) := by
  obtain ⟨hi, rfl⟩ := List.getElem?_eq_some_iff.mp h
  rw [← List.drop_eq_getElem_cons hi, List.take_append_drop]

theorem set_eq_replaceAt {l : List τ} {i : ℕ} {a b : τ} (h : l[i]? = some a) :
    l.set i b = replaceAt l i [b] := by
  have hlt := (List.getElem?_eq_some_iff.mp h).1
  rw [replaceAt, List.set_eq_take_append_cons_drop, if_pos hlt]
  simp

/-- The thread at the index is the replacement… -/
theorem getElem?_replaceAt_self {l : List τ} {i : ℕ} {a : τ} (h : l[i]? = some a) (b : τ) :
    (replaceAt l i [b])[i]? = some b := by
  rw [← set_eq_replaceAt h]
  exact List.getElem?_set_self (List.getElem?_eq_some_iff.mp h).1

/-- …and the others are where they were. -/
theorem getElem?_replaceAt_ne {l : List τ} {i j : ℕ} {a : τ} (h : l[i]? = some a) (b : τ)
    (hij : i ≠ j) : (replaceAt l i [b])[j]? = l[j]? := by
  rw [← set_eq_replaceAt h]
  exact List.getElem?_set_ne hij

/-- A member of the new pool was there before or is one of the replacements. -/
theorem mem_replaceAt {l : List τ} {i : ℕ} {ts : List τ} {x : τ} (h : x ∈ replaceAt l i ts) :
    x ∈ l ∨ x ∈ ts := by
  simp only [replaceAt, List.mem_append] at h
  rcases h with (h | h) | h
  · exact .inl (List.mem_of_mem_take h)
  · exact .inr h
  · exact .inl (List.mem_of_mem_drop h)

theorem mem_replaceAt_right {l : List τ} {i : ℕ} {ts : List τ} {x : τ} (h : x ∈ ts) :
    x ∈ replaceAt l i ts := by simp [replaceAt, h]

/-- A thread other than the replaced one is still there. -/
theorem mem_replaceAt_of_ne {l : List τ} {i : ℕ} {t : τ} {ts : List τ} {x : τ}
    (hi : l[i]? = some t) (hx : x ∈ l) (hne : x ≠ t) : x ∈ replaceAt l i ts := by
  rw [eq_take_cons_drop hi] at hx
  simp only [List.mem_append, List.mem_cons] at hx
  simp only [replaceAt, List.mem_append]
  rcases hx with hx | rfl | hx
  · exact .inl (.inl hx)
  · exact absurd rfl hne
  · exact .inr hx

/-- A member of the new pool is one of the replacements, or stays whatever the replacements are. -/
theorem mem_replaceAt_swap {l : List τ} {i : ℕ} {ts : List τ} {x : τ} (h : x ∈ replaceAt l i ts)
    (ts' : List τ) : x ∈ ts ∨ x ∈ replaceAt l i ts' := by
  simp only [replaceAt, List.mem_append] at h ⊢
  rcases h with (h | h) | h
  · exact .inr (.inl (.inl h))
  · exact .inl h
  · exact .inr (.inr h)

/-- **A sum over the pool moves by the difference at the replaced thread.** -/
theorem sum_replaceAt {M : Type*} [AddCommMonoid M] (f : τ → M) {l : List τ} {i : ℕ} {t : τ}
    (h : l[i]? = some t) (ts : List τ) :
    ((replaceAt l i ts).map f).sum + f t = (l.map f).sum + (ts.map f).sum := by
  conv_rhs => rw [eq_take_cons_drop h]
  simp only [replaceAt, List.map_append, List.map_cons, List.sum_append, List.sum_cons]
  abel

theorem length_replaceAt {l : List τ} {i : ℕ} {t : τ} (h : l[i]? = some t) (ts : List τ) :
    (replaceAt l i ts).length + 1 = l.length + ts.length := by
  simpa using sum_replaceAt (fun _ => (1 : ℕ)) h ts

/-- **A count over the pool moves by the difference at the replaced thread.** -/
theorem countP_replaceAt (p : τ → Bool) {l : List τ} {i : ℕ} {t : τ} (h : l[i]? = some t)
    (ts : List τ) : (replaceAt l i ts).countP p + [t].countP p = l.countP p + ts.countP p := by
  conv_rhs => rw [eq_take_cons_drop h]
  simp only [replaceAt, List.countP_append, List.countP_cons, List.countP_nil]
  omega

/-- What a thread keeps when it is replaced by itself is kept by the pool. -/
theorem map_replaceAt_eq {β : Type*} (f : τ → β) {l : List τ} {i : ℕ} {t t' : τ}
    (h : l[i]? = some t) (ht : f t' = f t) : (replaceAt l i [t']).map f = l.map f := by
  conv_rhs => rw [eq_take_cons_drop h]
  simp [replaceAt, ht]

/-- Taking a thread out. -/
theorem perm_replaceAt_nil {l : List τ} {i : ℕ} {t : τ} (h : l[i]? = some t) :
    (t :: replaceAt l i []).Perm l := by
  conv_rhs => rw [eq_take_cons_drop h]
  simpa [replaceAt] using List.perm_middle.symm

/-- A term of a sum of multisets is below the sum. -/
theorem le_sum_of_mem {β : Type*} (f : τ → Multiset β) {l : List τ} {t : τ} (h : t ∈ l) :
    f t ≤ (l.map f).sum := by
  induction l with
  | nil => cases h
  | cons a l ih =>
    rw [List.map_cons, List.sum_cons]
    rcases List.mem_cons.mp h with rfl | h
    · exact Multiset.le_add_right _ _
    · exact (ih h).trans (Multiset.le_add_left _ _)

end Machinery
