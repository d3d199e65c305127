import Mathlib

/-!
# Submit/Gate — the submit gate of one jobset and its kill barriers

A submit cycle registers before it starts; a kill raises a barrier over its scope and takes, in the
same atomic section, the list of the activities registered so far.  A registration that meets
barriers is told which of its keys they cover, and is not entered at all when they cover every one.

Cycles and kills are named by their index: the source removes them from its ledgers by identity.
-/

namespace Lsfmgr.Submit

/-- A job key of the jobset. -/
abbrev Key := String

/-- The scope of a kill or a cancellation: `none` is the whole jobset. -/
abbrev Scope := Option (Finset Key)

namespace Scope

/-- The key is within the scope. -/
def Covers : Scope → Key → Prop
  | none, _ => True
  | some ks, k => k ∈ ks

instance : ∀ (sc : Scope) (k : Key), Decidable (sc.Covers k)
  | none, _ => .isTrue trivial
  | some ks, k => inferInstanceAs (Decidable (k ∈ ks))

/-- The keys of a set that are within the scope. -/
def restrict (sc : Scope) (ks : Finset Key) : Finset Key := ks.filter sc.Covers

@[simp] theorem mem_restrict {sc : Scope} {ks : Finset Key} {k : Key} :
    k ∈ sc.restrict ks ↔ k ∈ ks ∧ sc.Covers k := by simp [restrict]

end Scope

/-- `register()`'s answer: whether the activity was entered, and the keys the barriers cover. -/
structure Registration where
  activity : Bool
  refused : Finset Key
  deriving DecidableEq

structure SubmitGate where
  /-- The cycles registered and not yet unregistered. -/
  activities : List ℕ := []
  /-- The barriers up, each with the kill that raised it. -/
  barriers : List (ℕ × Scope) := []
  deriving DecidableEq

namespace SubmitGate

/-- The loop over the barriers: a whole-jobset barrier refuses every wanted key. -/
def refusedBy (want : Finset Key) : List (ℕ × Scope) → Finset Key
  | [] => ∅
  | (_, none) :: _ => want
  | (_, some scope) :: bs => (want ∩ scope) ∪ refusedBy want bs

/-- Barrier check and entry in one atomic section. -/
def register (g : SubmitGate) (cycle : ℕ) (keys : Finset Key) : Registration × SubmitGate :=
  let refused := refusedBy keys g.barriers
  if keys.Nonempty ∧ keys ⊆ refused then (⟨false, keys⟩, g)
  else (⟨true, refused⟩, { g with activities := g.activities ++ [cycle] })

/-- The end of an activity; nothing happens when it is not entered. -/
def unregister (g : SubmitGate) (cycle : ℕ) : SubmitGate :=
  { g with activities := g.activities.erase cycle }

/-- Raise a barrier and take the activities of that moment. -/
def barrierUp (g : SubmitGate) (kill : ℕ) (scope : Scope) : List ℕ × SubmitGate :=
  (g.activities, { g with barriers := g.barriers ++ [(kill, scope)] })

def barrierDown (g : SubmitGate) (kill : ℕ) : SubmitGate :=
  { g with barriers := g.barriers.eraseP fun b => b.1 = kill }

/-- **The refused keys are the wanted ones that some barrier covers.** -/
theorem mem_refusedBy {want : Finset Key} {k : Key} :
    ∀ {bs : List (ℕ × Scope)},
      k ∈ refusedBy want bs ↔ k ∈ want ∧ ∃ b ∈ bs, b.2.Covers k
  | [] => by simp [refusedBy]
  | (i, none) :: bs => by simp [refusedBy, Scope.Covers]
  | (i, some scope) :: bs => by
      rw [refusedBy, Finset.mem_union, Finset.mem_inter, mem_refusedBy]
      simp only [List.exists_mem_cons_iff, Scope.Covers]
      tauto

/-- What a registration answers: it covers every wanted key under a barrier, and it enters the
activity unless it refused them all. -/
theorem register_spec {g g' : SubmitGate} {c : ℕ} {keys : Finset Key} {reg : Registration}
    (h : g.register c keys = (reg, g')) :
    (∀ k ∈ keys, ∀ b ∈ g.barriers, b.2.Covers k → k ∈ reg.refused) ∧
      g'.barriers = g.barriers ∧
      (reg.activity = true ∧ g'.activities = g.activities ++ [c] ∨
        reg.activity = false ∧ g' = g ∧ reg.refused = keys) := by
  rw [register] at h
  split at h
  case isTrue hc =>
    obtain ⟨rfl, rfl⟩ := Prod.mk.inj h
    exact ⟨fun k hk _ _ _ => hk, rfl, .inr ⟨rfl, rfl, rfl⟩⟩
  case isFalse hc =>
    obtain ⟨rfl, rfl⟩ := Prod.mk.inj h
    exact ⟨fun k hk b hb hcov => mem_refusedBy.mpr ⟨hk, b, hb, hcov⟩, rfl, .inl ⟨rfl, rfl⟩⟩

end SubmitGate

end Lsfmgr.Submit
