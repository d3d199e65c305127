import Mathlib
import Lsfmgr.Machinery.Ledger
import Lsfmgr.Store.Memory

/-!
# Completion/Tracker — `CompletionTracker` and the ledger of the killer's activities

Three tables belong together: what a submission has staged, the callback of the cycle that has
started, and the latch of the notice that all jobs are done.  A completion waits for the kills that
are not delivered.
-/

namespace Lsfmgr.Completion

open Machinery

/-- `_PendingArm`: what is armed when the cycle of `token` starts. -/
structure PendingArm (φ : Type) where
  token : ℕ
  postProcess : Option φ
  pollIntervalS : Option ℚ

/-- A callback that is armed; `token` is a history that is not read. -/
structure Armed (φ : Type) where
  fn : φ
  token : ℕ

structure CompletionTracker (φ : Type) where
  postProcess : Dict String (Armed φ) := ∅
  finishedLatch : Finset String := ∅
  pendingArm : Dict String (PendingArm φ) := ∅

namespace CompletionTracker

variable {φ : Type}

def stage (t : CompletionTracker φ) (jobsetId : String) (token : ℕ) (postProcess : Option φ)
    (pollIntervalS : Option ℚ) : CompletionTracker φ :=
  { t with
    postProcess := t.postProcess.erase jobsetId
    pendingArm := t.pendingArm.set jobsetId ⟨token, postProcess, pollIntervalS⟩ }

/-- `confirm`, with the entry it returns. -/
def confirm (t : CompletionTracker φ) (jobsetId : String) (token : ℕ) :
    Option (PendingArm φ) × CompletionTracker φ :=
  match t.pendingArm.get? jobsetId with
  | none => (none, t)
  | some ent =>
    if ent.token = token then
      (some ent, { t with
        pendingArm := t.pendingArm.erase jobsetId
        finishedLatch := t.finishedLatch.erase jobsetId
        postProcess := match ent.postProcess with
          | some fn => t.postProcess.set jobsetId ⟨fn, token⟩
          | none => t.postProcess })
    else (none, t)

def discard (t : CompletionTracker φ) (jobsetId : String) (token : ℕ) : CompletionTracker φ :=
  match t.pendingArm.get? jobsetId with
  | none => t
  | some ent =>
    if ent.token = token then { t with pendingArm := t.pendingArm.erase jobsetId } else t

def forget (t : CompletionTracker φ) (jobsetId : String) : CompletionTracker φ where
  postProcess := t.postProcess.erase jobsetId
  pendingArm := t.pendingArm.erase jobsetId
  finishedLatch := t.finishedLatch.erase jobsetId

/-- `_all_terminal` -/
def allTerminal (records : List JobRecord) : Bool :=
  !records.isEmpty && records.all fun r => r.state.isTerminal

end CompletionTracker

/-! ## The kills that are under way -/

/-- `_KillActivity`: which object it is, and the parent ids it is about. -/
structure KillActivity where
  slot : ℕ
  jobIds : List ℕ
  deriving DecidableEq

/-- `blocks_completion`; a kill without a jobset is entered under the empty name. -/
def blocksCompletion (active : Dict String (List KillActivity)) (jobsetId : String)
    (records : List JobRecord) : Bool :=
  !(active.listAt jobsetId).isEmpty ||
    (active.listAt "").any fun a => records.any fun r => r.jobId.any fun id => id ∈ a.jobIds

/-- A job that a kill without a jobset is about. -/
def KillActivity.Touches (a : KillActivity) (records : List JobRecord) : Prop :=
  ∃ r ∈ records, ∃ id, r.jobId = some id ∧ id ∈ a.jobIds

theorem blocksCompletion_eq_false {active : Dict String (List KillActivity)} {jobsetId : String}
    {records : List JobRecord} (h : blocksCompletion active jobsetId records = false) :
    active.listAt jobsetId = [] ∧ ∀ a ∈ active.listAt "", ¬ a.Touches records := by
  rw [blocksCompletion, Bool.or_eq_false_iff] at h
  refine ⟨by simpa using h.1, ?_⟩
  rintro a ha ⟨r, hr, id, hid, hmem⟩
  have hany := List.any_eq_false.mp h.2 a ha
  refine hany (List.any_eq_true.mpr ⟨r, hr, ?_⟩)
  rw [hid]
  simpa using hmem

end Lsfmgr.Completion
