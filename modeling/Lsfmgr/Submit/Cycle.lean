import Mathlib
import Lsfmgr.Store.Memory
import Lsfmgr.Submit.Gate

/-!
# Submit/Cycle — the state of one submit cycle and of what the cycles share

A `Cycle` is the source's `_SubmitContext`: the counters, the retry ledger, the set of keys that are
inside the submission section and the two cancellation marks.  `Ledger` is what no code reads: it
remembers which unit was counted, which generation the reset gave each key, which job ids
`run_submit` returned, and how each retry entry was settled.
-/

namespace Lsfmgr.Submit

open Machinery

/-- A failed run of the wrapper. -/
structure SubmitError where
  failReason : String
  diagnostic : String := ""
  retryable : Bool := true
  deriving DecidableEq

/-- `MAX_FAIL_MESSAGE_CHARS` -/
def maxFailMessageChars : ℕ := 4000

def clip (s : String) : String := String.ofList (s.toList.take maxFailMessageChars)

/-- What a `_SubmitTask` runs: the argv of its job, after `number` failed attempts. -/
structure Attempt where
  number : ℕ
  argv : List String
  deriving DecidableEq

/-- The retry that follows: the factory of `_retry_factory` keeps the argv. -/
def Attempt.next (a : Attempt) : Attempt := { a with number := a.number + 1 }

/-- A retry waiting for its timer.  `serial` tells the entries of one key apart. -/
structure PendingRetry where
  attempt : Attempt
  serial : ℕ
  deriving DecidableEq

/-- How a retry entry left the ledger. -/
inductive Settlement
  | fired
  | aborted
  | shutDown
  deriving DecidableEq

structure SubmitReport where
  total : ℕ
  succeeded : ℕ
  failed : ℕ
  cancelled : ℕ
  retried : ℕ
  failReasons : Dict String ℕ
  deriving DecidableEq

/-- What a counted unit ended as. -/
inductive Outcome
  | succeeded
  | failed (reason : String)
  | cancelled
  deriving DecidableEq

/-- The emissions of the submitter, and its one call out to the status source. -/
inductive Signal
  | started
  | progress (done total : ℕ)
  | jobsChanged (batch : List JobRecord)
  | finished (report : SubmitReport)
  | error (message : String)
  | recordsReset (records : List JobRecord)
  | gateRejected
  | preSubmitStarted
  | preSubmitFinished (ok : Bool)
  | forgetStatus (jobIds : List ℕ)
  deriving DecidableEq

/-- What the proofs remember of a cycle; no step reads it. -/
structure Ledger where
  /-- The keys whose unit has been counted. -/
  counted : List Key := []
  /-- The generation the reset gave each key. -/
  gens : Dict Key ℕ := ∅
  /-- The job ids `run_submit` returned. -/
  returned : List (Key × ℕ) := []
  /-- The retry entries registered. -/
  registered : List ℕ := []
  /-- The retry entries that left the ledger, and how. -/
  settled : List (ℕ × Settlement) := []

/-- `_SubmitContext`.  Each keyed item is the argv of the wrapper. -/
structure Cycle where
  keyed : List (Key × List String)
  maxRetry : ℕ
  slotLimit : ℕ
  cancelEvent : Bool := false
  done : ℕ := 0
  succeeded : ℕ := 0
  failed : ℕ := 0
  cancelled : ℕ := 0
  retriedKeys : Finset Key := ∅
  failReasons : Dict String ℕ := ∅
  pendingRetries : Dict Key PendingRetry := ∅
  finished : Bool := false
  changedBuffer : List JobRecord := []
  /-- Whether the gate holds an activity for this cycle. -/
  gateToken : Bool := false
  cancelledKeys : Finset Key := ∅
  /-- The keys inside the submission section. -/
  inflight : Finset Key := ∅
  slotsUsed : ℕ := 0
  ledger : Ledger := {}

namespace Cycle

def keys (cyc : Cycle) : List Key := cyc.keyed.map Prod.fst

def total (cyc : Cycle) : ℕ := cyc.keyed.length

/-- The item of a key. -/
def argvOf (cyc : Cycle) (k : Key) : Option (List String) :=
  (cyc.keyed.find? fun ki => ki.1 = k).map Prod.snd

/-- `_make_report` -/
def report (cyc : Cycle) : SubmitReport where
  total := cyc.total
  succeeded := cyc.succeeded
  failed := cyc.failed
  cancelled := cyc.cancelled
  retried := cyc.retriedKeys.card
  failReasons := cyc.failReasons

/-- The submission of this key is cancelled, as the whole cycle or on its own. -/
def isCancelled (cyc : Cycle) (k : Key) : Bool := cyc.cancelEvent || k ∈ cyc.cancelledKeys

/-- `d[k] = d.get(k, 0) + n` -/
def addReason (d : Dict String ℕ) (reason : String) (n : ℕ) : Dict String ℕ :=
  d.set reason ((d.get? reason).getD 0 + n)

/-- The locked section of `_count`. -/
def addDone (cyc : Cycle) (ks : List Key) (outcome : Outcome) (changed : List JobRecord) : Cycle :=
  let n := ks.length
  let cyc := match outcome with
    | .succeeded => { cyc with succeeded := cyc.succeeded + n }
    | .failed reason =>
      { cyc with failed := cyc.failed + n, failReasons := addReason cyc.failReasons reason n }
    | .cancelled => { cyc with cancelled := cyc.cancelled + n }
  { cyc with
    done := cyc.done + n
    changedBuffer := cyc.changedBuffer ++ changed
    ledger := { cyc.ledger with counted := cyc.ledger.counted ++ ks } }

/-- The counters of `_finish_forced`: what is not counted yet becomes failed or cancelled. -/
def forceDone (cyc : Cycle) (ks : List Key) (failed : Bool) : Cycle :=
  let remaining := cyc.total - cyc.done
  let cyc := { cyc with
    finished := true
    done := cyc.total
    ledger := { cyc.ledger with counted := cyc.ledger.counted ++ ks } }
  if failed then
    { cyc with
      failed := cyc.failed + remaining
      failReasons := if remaining = 0 then cyc.failReasons
        else cyc.failReasons.set "PRE_SUBMIT_FAILED" remaining }
  else { cyc with cancelled := cyc.cancelled + remaining }

/-- Register a retry entry. -/
def addRetry (cyc : Cycle) (k : Key) (attempt : Attempt) (serial : ℕ) : Cycle :=
  { cyc with
    pendingRetries := cyc.pendingRetries.set k ⟨attempt, serial⟩
    ledger := { cyc.ledger with registered := cyc.ledger.registered ++ [serial] } }

/-- Pop the entry of one key, if there is one. -/
def popRetry (cyc : Cycle) (k : Key) (how : Settlement) : Option (PendingRetry × Cycle) :=
  (cyc.pendingRetries.get? k).map fun e =>
    (e, { cyc with
      pendingRetries := cyc.pendingRetries.erase k
      ledger := { cyc.ledger with settled := cyc.ledger.settled ++ [(e.serial, how)] } })

/-- Pop the entries of a list of keys: the keys that had one, and the cycle without them. -/
def popRetries (cyc : Cycle) (how : Settlement) : List Key → List Key × Cycle
  | [] => ([], cyc)
  | k :: ks =>
    match cyc.popRetry k how with
    | none => cyc.popRetries how ks
    | some (_, cyc) =>
      let (popped, cyc) := cyc.popRetries how ks
      (k :: popped, cyc)

end Cycle

/-- What the submitter's threads share. -/
structure Shared where
  store : InMemoryStore
  cycles : List Cycle := []
  /-- `_contexts.get(jobset_id)` -/
  contexts : Option ℕ := none
  gate : SubmitGate := {}
  shutdown : Bool := false
  /-- Generations are drawn from here; every record's generation is below it. -/
  nextGen : ℕ := 0
  nextSerial : ℕ := 0
  log : List (ℕ × Signal) := []

namespace Shared

/-- `is_active`: the current cycle, if any, has not finished. -/
def isActive (w : Shared) : Bool :=
  match w.contexts.bind fun c => w.cycles[c]? with
  | none => false
  | some cyc => !cyc.finished

def setCycle (w : Shared) (c : ℕ) (cyc : Cycle) : Shared :=
  { w with cycles := w.cycles.set c cyc }

@[simp] theorem store_setCycle (w : Shared) (c : ℕ) (cyc : Cycle) :
    (w.setCycle c cyc).store = w.store := rfl

@[simp] theorem contexts_setCycle (w : Shared) (c : ℕ) (cyc : Cycle) :
    (w.setCycle c cyc).contexts = w.contexts := rfl

/-- Reading a cycle after one was replaced. -/
theorem cycles_setCycle {w : Shared} {c c' : ℕ} {cyc cyc₀ : Cycle} (h : w.cycles[c]? = some cyc₀) :
    (w.setCycle c cyc).cycles[c']? = if c' = c then some cyc else w.cycles[c']? := by
  have hlt : c < w.cycles.length := (List.getElem?_eq_some_iff.mp h).1
  rw [setCycle, List.getElem?_set]
  by_cases hc : c = c'
  · subst hc; simp [hlt]
  · simp [hc, Ne.symm hc]

end Shared

end Lsfmgr.Submit
