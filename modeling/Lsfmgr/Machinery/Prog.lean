import Mathlib

/-!
# Machinery/Prog — programs over a state that may raise, and their triples

A program reads and writes `σ` and ends in a value or in an exception of type `ε`; what it wrote
before it raised stays written.  `Triple P m Q E` says: from a state in `P` the program `m` either
returns a value and a state in `Q`, or raises and leaves a state in `E`.
-/

namespace Machinery

variable {σ ε ε' : Type}

/-! ## Values that may be exceptions -/

section

variable {ε α β : Type*} {x : Except ε α}

theorem except_map_eq_ok {f : α → β} {b : β} : x.map f = .ok b ↔ ∃ a, x = .ok a ∧ f a = b := by
  cases x <;> simp [Except.map]

theorem except_bind_eq_ok {ε α β : Type} {x : Except ε α} {f : α → Except ε β} {b : β} :
    (x >>= f) = .ok b ↔ ∃ a, x = .ok a ∧ f a = .ok b := by
  rcases x with e | a
  · exact ⟨fun h => (by cases h), fun ⟨_, h, _⟩ => (by cases h)⟩
  · exact ⟨fun h => ⟨a, rfl, h⟩, fun ⟨_, h, hf⟩ => by cases h; exact hf⟩

/-- An item that raises ends the whole. -/
theorem exists_of_mapM_error {ε α β : Type} {f : α → Except ε β} {l : List α} {e : ε}
    (h : l.mapM f = .error e) : ∃ x ∈ l, f x = .error e := by
  induction l with
  | nil => cases h
  | cons x l ih =>
    rw [List.mapM_cons] at h
    rcases hx : f x with e' | y
    · rw [hx] at h
      exact ⟨x, List.mem_cons_self, hx.trans (by simpa [bind, Except.bind] using h)⟩
    · rcases hl : l.mapM f with e' | ys
      · rw [hx, hl] at h
        obtain rfl : e' = e := by simpa [bind, Except.bind] using h
        obtain ⟨z, hz, hfz⟩ := ih hl
        exact ⟨z, List.mem_cons_of_mem _ hz, hfz⟩
      · rw [hx, hl] at h
        cases h

end

/-! ## Programs -/

/-- A program over `σ` with exceptions `ε`. -/
def Prog (σ ε α : Type) : Type := σ → Except ε α × σ

namespace Prog

variable {α β : Type}

instance : Monad (Prog σ ε) where
  pure a := fun s => (.ok a, s)
  bind m f := fun s =>
    match m s with
    | (.ok a, s') => f a s'
    | (.error e, s') => (.error e, s')

/-- Raise an exception. -/
def raise (e : ε) : Prog σ ε α := fun s => (.error e, s)

/-- A check that only reads its arguments. -/
def ofExcept (x : Except ε α) : Prog σ ε α := fun s => (x, s)

/-- `try m except e: h(e)`. -/
def handle (m : Prog σ ε α) (h : ε → Prog σ ε' α) : Prog σ ε' α := fun s =>
  match m s with
  | (.ok a, s') => (.ok a, s')
  | (.error e, s') => h e s'

/-- One program for each item, in order; the first that raises ends the loop. -/
def each (f : α → Prog σ ε β) : List α → Prog σ ε (List β)
  | [] => pure []
  | a :: as => do
    let b ← f a
    let bs ← each f as
    pure (b :: bs)

section Eval

variable {m : Prog σ ε α} {s s' : σ}

theorem bind_ok {a : α} (h : m s = (.ok a, s')) (f : α → Prog σ ε β) : (m >>= f) s = f a s' := by
  simp only [Bind.bind, h]

theorem bind_error {e : ε} (h : m s = (.error e, s')) (f : α → Prog σ ε β) :
    (m >>= f) s = (.error e, s') := by
  simp only [Bind.bind, h]

theorem handle_ok {a : α} (h : m s = (.ok a, s')) (g : ε → Prog σ ε' α) :
    handle m g s = (.ok a, s') := by
  simp only [handle, h]

theorem handle_error {e : ε} (h : m s = (.error e, s')) (g : ε → Prog σ ε' α) :
    handle m g s = g e s' := by
  simp only [handle, h]

end Eval

/-- **Partial correctness with exceptions.** -/
def Triple (P : σ → Prop) (m : Prog σ ε α) (Q : α → σ → Prop) (E : ε → σ → Prop) : Prop :=
  ∀ s, P s → (∀ a s', m s = (.ok a, s') → Q a s') ∧ ∀ e s', m s = (.error e, s') → E e s'

namespace Triple

variable {P P' : σ → Prop} {m : Prog σ ε α} {Q Q' : α → σ → Prop} {E E' : ε → σ → Prop}

theorem ret {a : α} (h : ∀ s, P s → Q a s) : Triple P (pure a : Prog σ ε α) Q E := by
  intro s hs
  refine ⟨fun a' s' heq => ?_, fun e s' heq => (by cases heq)⟩
  obtain ⟨ha, rfl⟩ := Prod.mk.inj heq
  obtain rfl := Except.ok.inj ha
  exact h s hs

theorem raise {e : ε} (h : ∀ s, P s → E e s) : Triple P (Prog.raise e : Prog σ ε α) Q E := by
  intro s hs
  refine ⟨fun a s' heq => (by cases heq), fun e' s' heq => ?_⟩
  obtain ⟨he, rfl⟩ := Prod.mk.inj heq
  obtain rfl := Except.error.inj he
  exact h s hs

theorem ofExcept {x : Except ε α} (hok : ∀ a s, x = .ok a → P s → Q a s)
    (herr : ∀ e s, x = .error e → P s → E e s) : Triple P (Prog.ofExcept x) Q E := by
  intro s hs
  refine ⟨fun a s' heq => ?_, fun e s' heq => ?_⟩
  · obtain ⟨ha, rfl⟩ := Prod.mk.inj heq
    exact hok a s ha hs
  · obtain ⟨he, rfl⟩ := Prod.mk.inj heq
    exact herr e s he hs

theorem bind {R : β → σ → Prop} {f : α → Prog σ ε β} (hm : Triple P m Q E)
    (hf : ∀ a, Triple (Q a) (f a) R E) : Triple P (m >>= f) R E := by
  intro s hs
  obtain ⟨hok, herr⟩ := hm s hs
  rcases hms : m s with ⟨e | a, s'⟩
  · have hrun : (m >>= f) s = (.error e, s') := by simp only [Bind.bind, hms]
    rw [hrun]
    refine ⟨fun b s'' heq => (by cases heq), fun e' s'' heq => ?_⟩
    obtain ⟨he, rfl⟩ := Prod.mk.inj heq
    obtain rfl := Except.error.inj he
    exact herr e s' hms
  · have hrun : (m >>= f) s = f a s' := by simp only [Bind.bind, hms]
    rw [hrun]
    exact hf a s' (hok a s' hms)

theorem handle {h : ε → Prog σ ε' α} {E₁ : ε' → σ → Prop} (hm : Triple P m Q E)
    (hh : ∀ e, Triple (E e) (h e) Q E₁) : Triple P (Prog.handle m h) Q E₁ := by
  intro s hs
  obtain ⟨hok, herr⟩ := hm s hs
  rcases hms : m s with ⟨e | a, s'⟩
  · have hrun : Prog.handle m h s = h e s' := by simp only [Prog.handle, hms]
    rw [hrun]
    exact hh e s' (herr e s' hms)
  · have hrun : Prog.handle m h s = (.ok a, s') := by simp only [Prog.handle, hms]
    rw [hrun]
    refine ⟨fun a' s'' heq => ?_, fun e s'' heq => (by cases heq)⟩
    obtain ⟨ha, rfl⟩ := Prod.mk.inj heq
    obtain rfl := Except.ok.inj ha
    exact hok a s' hms

/-- The rule of consequence. -/
theorem mono (h : Triple P m Q E) (hP : ∀ s, P' s → P s) (hQ : ∀ a s, Q a s → Q' a s)
    (hE : ∀ e s, E e s → E' e s) : Triple P' m Q' E' := fun s hs =>
  ⟨fun a s' heq => hQ a s' ((h s (hP s hs)).1 a s' heq),
    fun e s' heq => hE e s' ((h s (hP s hs)).2 e s' heq)⟩

/-- A fact the precondition proves may be assumed. -/
theorem assuming {φ : Prop} (hφ : ∀ s, P s → φ) (h : φ → Triple P m Q E) : Triple P m Q E :=
  fun s hs => h (hφ s hs) s hs

theorem ite {c : Prop} [Decidable c] {m₁ m₂ : Prog σ ε α} (h₁ : c → Triple P m₁ Q E)
    (h₂ : ¬c → Triple P m₂ Q E) : Triple P (if c then m₁ else m₂) Q E := by
  split
  case isTrue h => exact h₁ h
  case isFalse h => exact h₂ h

/-- **A loop**: the invariant is about the items still to come. -/
theorem each {f : α → Prog σ ε β} {I : List α → σ → Prop}
    (hstep : ∀ a as, Triple (I (a :: as)) (f a) (fun _ => I as) E) (as : List α) :
    Triple (I as) (Prog.each f as) (fun _ => I []) E := by
  induction as with
  | nil => exact ret fun s hs => hs
  | cons a as ih => exact bind (hstep a as) fun b => bind ih fun bs => ret fun s hs => hs

/-- What a program does to the state, whether it returns or raises. -/
theorem state {I : σ → Prop} (h : Triple P m (fun _ => I) fun _ => I) {s : σ} (hs : P s) :
    I (m s).2 := by
  obtain ⟨hok, herr⟩ := h s hs
  rcases hms : m s with ⟨e | a, s'⟩
  · exact herr e s' hms
  · exact hok a s' hms

end Triple

end Prog

end Machinery
