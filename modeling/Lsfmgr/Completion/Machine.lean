import Mathlib
import Lsfmgr.Machinery.Transition
import Lsfmgr.Completion.Tracker
import Lsfmgr.Store.Counts

/-!
# Completion/Machine — the tracker on the main thread

The tracker is called by submissions, by the signals that a cycle has started or will not start, by
whatever has seen the jobs of a jobset change, and by removals.  `maybe_finish` sends two signals,
whose slots may call the manager again before it goes on: what it has left to do is a `Frame` on the
stack.  What it reads of the submitter and the store other threads may change at any time, so each
call comes with what it reads.
-/

namespace Lsfmgr.Completion

open Machinery

/-- What a call of `maybe_finish` reads: `submitter.is_active`, and the jobs and the summary of the
jobset, `none` where the store raises. -/
structure View where
  active : Bool
  records : Option (List JobRecord)
  summary : Option InMemoryStore.Summary

/-- `maybe_finish` while the slots of a signal run. -/
inductive Frame (φ : Type)
  /-- `jobset_finished` is sent. -/
  | finished (jobsetId : String) (armed : Option (Armed φ)) (records : List JobRecord)
  /-- `post_processing_started` is sent. -/
  | started (jobsetId : String) (armed : Armed φ) (records : List JobRecord)

/-- What happened, in its order. -/
inductive Event (φ : Type)
  | staged (jobsetId : String) (token : ℕ) (postProcess : Option φ)
  | confirmed (jobsetId : String) (token : ℕ)
  | forgotten (jobsetId : String)
  /-- The jobset was read as gone, or as not done. -/
  | reopened (jobsetId : String)
  /-- The jobset was read as done by kills alone, which is not notified. -/
  | killed (jobsetId : String)
  /-- `jobset_finished` -/
  | finished (jobsetId : String) (records : List JobRecord) (summary : InMemoryStore.Summary)
  /-- A callback is taken out, with the records it is to be given. -/
  | taken (jobsetId : String) (armed : Armed φ) (records : List JobRecord)
  /-- `_PostProcessTask` is started. -/
  | launched (jobsetId : String) (armed : Armed φ) (records : List JobRecord)
  | killAccepted (jobsetId : String) (activity : KillActivity)
  | killDelivered (jobsetId : String) (slot : ℕ)

/-- The main thread; `history` is not read. -/
structure State (φ : Type) where
  tracker : CompletionTracker φ := {}
  kills : Dict String (List KillActivity) := ∅
  shutdownDone : Bool := false
  stack : List (Frame φ) := []
  nextToken : ℕ := 0
  nextSlot : ℕ := 0
  history : List (Event φ) := []

inductive Act (φ : Type)
  /-- `submit`, with a token of its own. -/
  | stage (jobsetId : String) (postProcess : Option φ) (pollIntervalS : Option ℚ)
  | confirm (jobsetId : String) (token : ℕ)
  | discard (jobsetId : String) (token : ℕ)
  | maybeFinish (jobsetId : String) (view : View)
  | forget (jobsetId : String)
  | killAccepted (jobsetId : String) (jobIds : List ℕ)
  | killDelivered (jobsetId : String) (slot : ℕ)
  | shutdown
  /-- The slots of the innermost signal return. -/
  | resume

namespace State

variable {φ : Type} (s : State φ)

/-- `maybe_finish`, from the callback on. -/
def postProcess (jobsetId : String) (records : List JobRecord) : Option (Armed φ) → State φ
  | none => s
  | some armed =>
    if s.shutdownDone then s else { s with stack := .started jobsetId armed records :: s.stack }

/-- `maybe_finish`, from the latch on; `armed` is what was taken out before. -/
def notify (jobsetId : String) (records : List JobRecord) (summary : Option InMemoryStore.Summary)
    (armed : Option (Armed φ)) : State φ :=
  if jobsetId ∈ s.tracker.finishedLatch then s.postProcess jobsetId records armed
  else
    match summary with
    | none => s
    | some summary =>
      { s with
        tracker := { s.tracker with finishedLatch := insert jobsetId s.tracker.finishedLatch }
        stack := .finished jobsetId armed records :: s.stack
        history := s.history ++ [.finished jobsetId records summary] }

/-- The callback of the jobset is taken out. -/
def take (jobsetId : String) (records : List JobRecord) : State φ :=
  { s with
    tracker := { s.tracker with postProcess := s.tracker.postProcess.erase jobsetId }
    history := match s.tracker.postProcess.get? jobsetId with
      | some armed => s.history ++ [.taken jobsetId armed records]
      | none => s.history }

/-- A jobset whose jobs were all killed counts as notified. -/
def latchKilled (jobsetId : String) (records : List JobRecord) : State φ :=
  if records.all (·.killed) then
    { s with
      tracker := { s.tracker with finishedLatch := insert jobsetId s.tracker.finishedLatch }
      history := s.history ++ [.killed jobsetId] }
  else s

/-- The latch is released. -/
def reopen (jobsetId : String) : State φ :=
  { s with
    tracker := { s.tracker with finishedLatch := s.tracker.finishedLatch.erase jobsetId }
    history := s.history ++ [.reopened jobsetId] }

/-- `maybe_finish`, up to its first signal. -/
def maybeFinish (jobsetId : String) (view : View) : State φ :=
  if s.shutdownDone then s
  else if view.active then s
  else
    match view.records with
    | none =>
      { s with
        tracker := { s.tracker with postProcess := s.tracker.postProcess.erase jobsetId } }.reopen
        jobsetId
    | some records =>
      if CompletionTracker.allTerminal records then
        if blocksCompletion s.kills jobsetId records then s
        else ((s.take jobsetId records).latchKilled jobsetId records).notify jobsetId
          records view.summary
          (s.tracker.postProcess.get? jobsetId)
      else s.reopen jobsetId

def step : Act φ → State φ
  | .stage jobsetId fn poll =>
    { s with
      tracker := s.tracker.stage jobsetId s.nextToken fn poll
      nextToken := s.nextToken + 1
      history := s.history ++ [.staged jobsetId s.nextToken fn] }
  | .confirm jobsetId token =>
    match s.tracker.confirm jobsetId token with
    | (some _, tracker) =>
      { s with tracker := tracker, history := s.history ++ [.confirmed jobsetId token] }
    | (none, _) => s
  | .discard jobsetId token => { s with tracker := s.tracker.discard jobsetId token }
  | .maybeFinish jobsetId view => s.maybeFinish jobsetId view
  | .forget jobsetId =>
    { s with
      tracker := s.tracker.forget jobsetId
      history := s.history ++ [.forgotten jobsetId] }
  | .killAccepted jobsetId jobIds =>
    { s with
      kills := ledgerAdd s.kills jobsetId ⟨s.nextSlot, jobIds⟩
      nextSlot := s.nextSlot + 1
      history := s.history ++ [.killAccepted jobsetId ⟨s.nextSlot, jobIds⟩] }
  | .killDelivered jobsetId slot =>
    { s with
      kills := ledgerRemove s.kills jobsetId fun a => a.slot = slot
      history := s.history ++ [.killDelivered jobsetId slot] }
  | .shutdown => { s with shutdownDone := true }
  | .resume =>
    match s.stack with
    | [] => s
    | .finished jobsetId armed records :: stack =>
      { s with stack := stack }.postProcess jobsetId records armed
    | .started jobsetId armed records :: stack =>
      if s.shutdownDone then { s with stack := stack }
      else { s with
        stack := stack
        history := s.history ++ [.launched jobsetId armed records] }

end State

/-- The main thread, from its beginning. -/
def mainThread (φ : Type) : System (State φ) (Act φ) where
  init s := s = {}
  step s a := some (s.step a)

end Lsfmgr.Completion
