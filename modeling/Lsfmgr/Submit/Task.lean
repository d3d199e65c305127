import Mathlib
import Lsfmgr.Submit.Cycle

/-!
# Submit/Task — the submitter's code as atomic instructions

A thread of the submitter is the list of the instructions it has still to run.  An instruction is
one atomic section of the source: one store operation, one section under `ctx.lock`,
`ctx.retry_lock` or the gate's lock, or one call of `run_submit`.  Running it changes the shared
state, puts the instructions it calls for in front of the rest, and may spawn threads.

Two reads of flags that are only ever raised are one section: it takes place at the read that
decided the outcome.  What the source leaves to the clock, to the wrapper or to a callback is read
from an `Oracle`.
-/

namespace Lsfmgr.Submit

open Machinery

inductive Instr
  -- `_SubmitTask`
  | enter (k : Key) (attempt : Attempt)
  | toSubmitting (k : Key) (attempt : Attempt)
  | slotWait (k : Key) (attempt : Attempt)
  | slotHeld (k : Key) (attempt : Attempt)
  | running (k : Key) (attempt : Attempt)
  | succeeded (k : Key) (jobId : ℕ)
  | failed (k : Key) (attempt : Attempt) (err : SubmitError)
  | retryCheck (k : Key) (attempt : Attempt) (err : SubmitError)
  | toRetryWait (k : Key) (attempt : Attempt) (err : SubmitError)
  | retried (k : Key)
  | schedule (k : Key) (attempt : Attempt)
  | requestRetry (k : Key)
  | toSubmitFailed (k : Key) (attempt : Attempt) (err : SubmitError)
  | cancelled (k : Key)
  | crashed (k : Key) (err : String)
  | releaseSlot
  | leave (k : Key)
  -- `_count` and the notifications
  | note (rec : JobRecord)
  | count (ks : List Key) (outcome : Outcome) (changed : List JobRecord)
  | emitProgress (progress : Bool)
  | finishIfDone (force : Bool)
  | unregister
  | dropContext
  -- the retry timer, and giving a retry up
  | onRetryRequested (k : Key)
  | fire (k : Key)
  | fired (k : Key) (attempt : Attempt)
  | giveUp (k : Key) (reason : String)
  | giveUpWrite (k : Key) (reason : String)
  -- `resubmit_existing` and the launch of a cycle
  | register (preSubmit : Bool)
  | newContext (reg : Registration) (preSubmit : Bool)
  | startLaunch (preSubmit : Bool)
  | preSubmitStart
  | preSubmitRun
  | preSubmitOk
  | launch
  | readBlocked
  | readPrevious (blocked : Finset Key)
  | reset (todo : List (Key × List String)) (blocked : Finset Key) (previous : Dict Key JobRecord)
      (launched : List JobRecord) (stale : List ℕ) (skipped : List Key)
  | makeTasks (launched : List JobRecord)
  | checkFinished (launched : List JobRecord)
  | announce (launched : List JobRecord)
  | fanOut (todo : List JobRecord)
  | gateReject (finish : Bool)
  | gateFail (keys : List Key) (todo : List JobRecord) (message : String) (stuck : List JobRecord)
  | finishForced (keys : List Key) (failed emit : Bool)

/-- One thread of the submitter, working for one cycle. -/
structure Thread where
  cycle : ℕ
  code : List Instr

/-- How one call of `run_submit` ends. -/
inductive SubmitResult
  | jobId (n : ℕ)
  | submitError (e : SubmitError)
  | raises (message : String)

/-- What a step reads from outside the library. -/
structure Oracle where
  now : Time := 0
  /-- The throttler lets this emission through. -/
  emit : Bool := false
  /-- The slot wait looks at `should_stop` before it gets a slot. -/
  stop : Bool := false
  result : SubmitResult := .raises ""
  /-- The value of `pre_submit`, or the exception it raises. -/
  preSubmit : Except String Bool := .ok true
  /-- The store fails this one reset call. -/
  resetFails : Option String := none
  /-- Making the tasks raises. -/
  makeFails : Option String := none

/-- The parts of the configuration and of Python's library that the submitter uses. -/
structure Params where
  jobsetId : String
  /-- `shlex.split` and `shlex.join` -/
  split : String → List String
  join : List String → String
  workers : ℕ
  submitFinishedOnGateReject : Bool

/-- The outcome of one instruction: its cycle and the parts of the shared state it may write, the
signals it emits, what the thread runs next, and the code of the threads it spawns for its cycle. -/
structure Effect where
  cyc : Cycle
  store : InMemoryStore
  contexts : Option ℕ
  gate : SubmitGate
  nextGen : ℕ
  nextSerial : ℕ
  signals : List Signal := []
  code : List Instr := []
  spawned : List (List Instr) := []

/-- Nothing written. -/
def Effect.pass (cyc : Cycle) (w : Shared) : Effect where
  cyc := cyc
  store := w.store
  contexts := w.contexts
  gate := w.gate
  nextGen := w.nextGen
  nextSerial := w.nextSerial

/-- The shared state after an instruction of cycle `c`. -/
def Shared.apply (w : Shared) (c : ℕ) (e : Effect) : Shared where
  store := e.store
  cycles := w.cycles.set c e.cyc
  contexts := e.contexts
  gate := e.gate
  shutdown := w.shutdown
  nextGen := e.nextGen
  nextSerial := e.nextSerial
  log := w.log ++ e.signals.map fun s => (c, s)

section Functions

variable (P : Params) (o : Oracle) (c : ℕ) (cyc : Cycle) (w : Shared)

/-! ## Counting and notifying -/

/-- `_count`: the locked section; its tail emits and looks whether the cycle is done. -/
def count (ks : List Key) (outcome : Outcome) (changed : List JobRecord) : Effect :=
  if ks = [] then .pass cyc w
  else
    { Effect.pass cyc w with
      cyc := cyc.addDone ks outcome changed
      code := [.emitProgress true, .finishIfDone false] }

/-- The last batch of state changes, if there is one. -/
def batch (changed : List JobRecord) : List Signal :=
  if changed = [] then [] else [.jobsChanged changed]

/-- `_emit_progress`, whose slots return without calling back; `Submit/Reentry` has those that
do. -/
def emitProgress (progress : Bool) : Effect :=
  if cyc.finished ∨ ¬(o.emit ∨ cyc.total ≤ cyc.done) then .pass cyc w
  else
    { Effect.pass cyc w with
      cyc := { cyc with changedBuffer := [] }
      signals := (if progress then [.progress cyc.done cyc.total] else [])
        ++ batch cyc.changedBuffer }

/-- `_finish_if_done`.  The cycle is finished before its slots run, so what they call emits
nothing. -/
def finishIfDone (force : Bool) : Effect :=
  if cyc.finished ∨ (cyc.done < cyc.total ∧ ¬force) then .pass cyc w
  else
    { Effect.pass cyc w with
      cyc := { cyc with finished := true, changedBuffer := [] }
      signals := (if cyc.total ≤ cyc.done then [.progress cyc.total cyc.total] else [])
        ++ batch cyc.changedBuffer ++ [.finished cyc.report]
      code := [.unregister, .dropContext] }

/-- `_drop_ctx`, under the gate's lock -/
def unregister : Effect :=
  { Effect.pass cyc w with gate := if cyc.gateToken then w.gate.unregister c else w.gate }

/-- `_drop_ctx`, under the context lock -/
def dropContext : Effect :=
  { Effect.pass cyc w with contexts := if w.contexts = some c then none else w.contexts }

/-- `_note_transition` -/
def note (rec : JobRecord) : Effect :=
  { Effect.pass cyc w with cyc := { cyc with changedBuffer := cyc.changedBuffer ++ [rec] } }

/-! ## One task -/

/-- `_enter_inflight`, with the caller's branch on its answer -/
def enterInflight (k : Key) (attempt : Attempt) : Effect :=
  if cyc.isCancelled k then { Effect.pass cyc w with code := [.cancelled k] }
  else
    { Effect.pass cyc w with
      cyc := { cyc with inflight := insert k cyc.inflight }
      code := [.toSubmitting k attempt] }

/-- `_task_vanished`: the record is gone, one cancelled unit. -/
def vanished (k : Key) : Effect := { Effect.pass cyc w with code := [.count [k] .cancelled []] }

/-- The transition to `SUBMITTING`; only a retry publishes it. -/
def toSubmitting (k : Key) (attempt : Attempt) : Effect :=
  match w.store.transition o.now P.jobsetId k (some .submitting) none [] with
  | .error _ => vanished cyc w k
  | .ok (rec, store) =>
    { Effect.pass cyc w with
      store
      code := (if attempt.number = 0 then [] else
          rec.toList.flatMap fun r => [.note r, .emitProgress false])
        ++ [.slotWait k attempt] }

/-- `ctx.slots.acquire(self._cancelled)` -/
def slotWait (k : Key) (attempt : Attempt) : Option Effect :=
  if o.stop then
    if cyc.isCancelled k then some { Effect.pass cyc w with code := [.cancelled k] } else none
  else if cyc.slotsUsed < cyc.slotLimit then
    some { Effect.pass cyc w with
      cyc := { cyc with slotsUsed := cyc.slotsUsed + 1 }
      code := [.slotHeld k attempt] }
  else none

/-- The head of `_submit_once`: the key may have become a kill target during the slot wait. -/
def slotHeld (k : Key) (attempt : Attempt) : Effect :=
  { Effect.pass cyc w with
    code := if cyc.isCancelled k then [.cancelled k, .releaseSlot] else [.running k attempt] }

/-- `run_submit` returns or raises; the slot is released after the outcome is handled, and before an
exception reaches `run`. -/
def runSubmit (k : Key) (attempt : Attempt) : Effect :=
  match o.result with
  | .jobId n =>
    { Effect.pass cyc w with
      cyc := { cyc with ledger := { cyc.ledger with
        returned := cyc.ledger.returned ++ [(k, n)] } }
      code := [.succeeded k n, .releaseSlot] }
  | .submitError e => { Effect.pass cyc w with code := [.failed k attempt e, .releaseSlot] }
  | .raises m => { Effect.pass cyc w with code := [.releaseSlot, .crashed k m] }

/-- `_task_succeeded` -/
def taskSucceeded (k : Key) (jobId : ℕ) : Effect :=
  match w.store.transition o.now P.jobsetId k (some .pend) none
      [.jobId (some jobId), .submitTime (some o.now), .failReason none, .failMessage none] with
  | .error _ => vanished cyc w k
  | .ok (rec, store) =>
    { Effect.pass cyc w with store, code := [.count [k] .succeeded rec.toList] }

/-- The head of `_task_failed`: was this key cancelled on its own meanwhile? -/
def taskFailed (k : Key) (attempt : Attempt) (err : SubmitError) : Effect :=
  { Effect.pass cyc w with
    code := if k ∈ cyc.cancelledKeys then [.cancelled k] else [.retryCheck k attempt err] }

/-- Retry or give up. -/
def retryCheck (k : Key) (attempt : Attempt) (err : SubmitError) : Effect :=
  { Effect.pass cyc w with
    code := if err.retryable ∧ attempt.number < cyc.maxRetry ∧ ¬cyc.cancelEvent ∧ ¬w.shutdown then
        [.toRetryWait k attempt err]
      else [.toSubmitFailed k attempt err] }

def toRetryWait (k : Key) (attempt : Attempt) (err : SubmitError) : Effect :=
  match w.store.transition o.now P.jobsetId k (some .retryWait) none
      [.retryCount (attempt.number + 1), .failReason (some err.failReason),
        .failMessage (some (clip err.diagnostic))] with
  | .error _ => vanished cyc w k
  | .ok (rec, store) =>
    { Effect.pass cyc w with
      store
      code := [.retried k] ++ rec.toList.flatMap (fun r => [.note r, .emitProgress false])
        ++ [.schedule k attempt.next, .requestRetry k] }

def markRetried (k : Key) : Effect :=
  { Effect.pass cyc w with cyc := { cyc with retriedKeys := insert k cyc.retriedKeys } }

/-- `_schedule_retry`: the entry goes into the ledger… -/
def scheduleRetry (k : Key) (attempt : Attempt) : Effect :=
  { Effect.pass cyc w with
    cyc := cyc.addRetry k attempt w.nextSerial
    nextSerial := w.nextSerial + 1 }

/-- …and the submitter's thread is asked to set the timer. -/
def requestRetry (k : Key) : Effect :=
  { Effect.pass cyc w with spawned := [[.onRetryRequested k]] }

def toSubmitFailed (k : Key) (attempt : Attempt) (err : SubmitError) : Effect :=
  match w.store.transition o.now P.jobsetId k (some .submitFailed) none
      [.retryCount attempt.number, .failReason (some err.failReason),
        .failMessage (some (clip err.diagnostic))] with
  | .error _ => vanished cyc w k
  | .ok (rec, store) =>
    { Effect.pass cyc w with store, code := [.count [k] (.failed err.failReason) rec.toList] }

/-- `_mark_cancelled` of one key -/
def markCancelled (k : Key) : Effect :=
  match w.store.transitionMany o.now P.jobsetId
      [⟨k, some .cancelled, Guard.of fun cur => cur.state = .submitting ∨ cur.state = .retryWait,
        [.failReason (some "CANCELLED"), .failMessage none, .retryCount 0, .killed true]⟩] with
  | (.error _, store) => { Effect.pass cyc w with store, code := [.crashed k ""] }
  | (.ok changed, store) =>
    { Effect.pass cyc w with store, code := [.count [k] .cancelled changed] }

/-- `_task_crashed`: a record without a job id becomes a failure. -/
def taskCrashed (k : Key) (err : String) : Effect :=
  match w.store.transition o.now P.jobsetId k (some .submitFailed)
      (Guard.of fun cur => cur.jobId = none)
      [.failReason (some "INTERNAL_ERROR"), .failMessage (some (clip err))] with
  | .error _ =>
    { Effect.pass cyc w with
      signals := [.error (k ++ ": " ++ err)]
      code := [.count [k] (.failed "INTERNAL_ERROR") []] }
  | .ok (rec, store) =>
    { Effect.pass cyc w with
      store
      signals := [.error (k ++ ": " ++ err)]
      code := [.count [k] (.failed "INTERNAL_ERROR") rec.toList] }

def releaseSlot : Effect :=
  { Effect.pass cyc w with cyc := { cyc with slotsUsed := cyc.slotsUsed - 1 } }

/-- `_leave_inflight`: discards the key, whoever entered it. -/
def leaveInflight (k : Key) : Effect :=
  { Effect.pass cyc w with cyc := { cyc with inflight := cyc.inflight.erase k } }

/-! ## Retries -/

/-- `_on_retry_requested`: give up at once, or set the timer if the entry is still there. -/
def onRetryRequested (k : Key) : Effect :=
  if w.shutdown ∨ cyc.cancelEvent then { Effect.pass cyc w with code := [.fire k] }
  else if k ∈ cyc.pendingRetries.keys then { Effect.pass cyc w with spawned := [[.fire k]] }
  else .pass cyc w

/-- The head of `fire`: whoever pops the entry settles it. -/
def fire (k : Key) : Effect :=
  match cyc.popRetry k .fired with
  | none => .pass cyc w
  | some (entry, cyc) => { Effect.pass cyc w with code := [.fired k entry.attempt] }

/-- The rest of `fire`: start the task, or give up. -/
def fired (k : Key) (attempt : Attempt) : Effect :=
  if w.shutdown ∨ cyc.cancelEvent then
    { Effect.pass cyc w with code := [.giveUp k "CANCELLED"] }
  else { Effect.pass cyc w with spawned := [[.enter k attempt, .leave k]] }

/-- The read of `_finalize_retry` -/
def finalizeRetry (k : Key) (defaultReason : String) : Effect :=
  match w.store.getJob P.jobsetId k with
  | .error _ => vanished cyc w k
  | .ok rec =>
    { Effect.pass cyc w with
      code := if rec.state = .retryWait then
          [.giveUpWrite k ((rec.failReason.filter (· ≠ "")).getD defaultReason)]
        else [.count [k] .cancelled []] }

/-- The write of `_finalize_retry` -/
def finalizeRetryWrite (k : Key) (reason : String) : Effect :=
  match w.store.transition o.now P.jobsetId k (some .cancelled) none
      [.killed true, .failReason (some reason)] with
  | .error _ => vanished cyc w k
  | .ok (rec, store) =>
    { Effect.pass cyc w with store, code := [.count [k] .cancelled rec.toList] }

/-! ## Launching a cycle -/

/-- `SubmitGate.register` -/
def registerCycle (preSubmit : Bool) : Effect :=
  let (reg, gate) := w.gate.register c cyc.keys.toFinset
  { Effect.pass cyc w with gate, code := [.newContext reg preSubmit] }

/-- The rest of `_new_context`: what the gate refused is cancelled. -/
def newContext (reg : Registration) (preSubmit : Bool) : Effect :=
  { Effect.pass cyc w with
    cyc := if reg.activity then
        { cyc with gateToken := true, cancelledKeys := cyc.cancelledKeys ∪ reg.refused }
      else { cyc with cancelEvent := true }
    code := [.startLaunch preSubmit] }

/-- The rest of `resubmit_existing`: a born-cancelled cycle is settled here, any other one is
launched by a coordinator thread. -/
def startLaunch (preSubmit : Bool) : Effect :=
  if cyc.cancelEvent then
    { Effect.pass cyc w with signals := [.started], code := [.gateReject true] }
  else { Effect.pass cyc w with code := [if preSubmit then .preSubmitStart else .launch] }

/-- `_LaunchTask.run` up to the call of `pre_submit` -/
def preSubmitStart : Effect :=
  if w.shutdown ∨ cyc.cancelEvent then
    { Effect.pass cyc w with
      signals := [.preSubmitStarted, .preSubmitFinished false], code := [.gateReject true] }
  else { Effect.pass cyc w with signals := [.preSubmitStarted], code := [.preSubmitRun] }

/-- The call of `pre_submit` -/
def preSubmitRun : Effect :=
  match o.preSubmit with
  | .error m =>
    { Effect.pass cyc w with
      signals := [.preSubmitFinished false], code := [.gateFail cyc.keys [] m []] }
  | .ok true => { Effect.pass cyc w with code := [.preSubmitOk] }
  | .ok false =>
    { Effect.pass cyc w with
      signals := [.preSubmitFinished false]
      code := [.gateReject P.submitFinishedOnGateReject] }

/-- The look at the cancellation after `pre_submit` -/
def preSubmitOk : Effect :=
  if cyc.cancelEvent ∨ w.shutdown then
    { Effect.pass cyc w with
      signals := [.preSubmitFinished false], code := [.gateReject true] }
  else { Effect.pass cyc w with signals := [.preSubmitFinished true], code := [.launch] }

/-- ① of `_launch_cycle` -/
def launchCycle : Effect :=
  { Effect.pass cyc w with signals := [.started], code := [.readBlocked] }

/-- `blocked = set(ctx.cancelled_keys)` -/
def readBlocked : Effect :=
  { Effect.pass cyc w with code := [.readPrevious cyc.cancelledKeys] }

/-- The records as they were, for the ids the reset makes stale. -/
def readPrevious (blocked : Finset Key) : Effect :=
  { Effect.pass cyc w with
    code := [.reset cyc.keyed blocked
      (w.store.getJobsByKeys P.jobsetId (cyc.keys.filter (· ∉ blocked))) [] [] []] }

/-- The fields of a reset. -/
def resetFields (generation : ℕ) (command : String) : List Field :=
  [.jobId none, .exitCode none, .failReason none, .failMessage none, .killed false,
    .generation generation, .retryCount 0, .command command, .submitTime none, .runTimeS none,
    .startTime none, .finishTime none, .sourceCluster none, .forwardCluster none]

/-- `_reset_records`, one key at a time. -/
def resetRecords (todo : List (Key × List String)) (blocked : Finset Key)
    (previous : Dict Key JobRecord) (launched : List JobRecord) (stale : List ℕ)
    (skipped : List Key) : Effect :=
  match todo with
  | [] =>
    { Effect.pass cyc w with
      signals := if stale = [] then [] else [.forgetStatus stale]
      code := (if skipped = [] then [] else [.count skipped .cancelled []])
        ++ [.makeTasks launched] }
  | (k, item) :: todo =>
    if k ∈ blocked then
      { Effect.pass cyc w with
        code := [.reset todo blocked previous launched stale (skipped ++ [k])] }
    else
      match o.resetFails with
      | some m =>
        { Effect.pass cyc w with
          signals := [.error (k ++ m)]
          code := [.count [k] .cancelled [],
            .reset todo blocked previous launched stale skipped] }
      | none =>
        match w.store.transition o.now P.jobsetId k (some .submitting) none
            (resetFields w.nextGen (P.join item)) with
        | .error _ =>
          { Effect.pass cyc w with
            code := [.count [k] .cancelled [],
              .reset todo blocked previous launched stale skipped] }
        | .ok (rec, store) =>
          { Effect.pass cyc w with
            store
            nextGen := w.nextGen + 1
            cyc := { cyc with ledger := { cyc.ledger with
              gens := cyc.ledger.gens.set k w.nextGen } }
            code := [.reset todo blocked previous (launched ++ rec.toList)
              (stale ++ ((previous.get? k).bind (·.jobId)).toList) skipped] }

/-- ③ of `_launch_cycle`: every task is made before the first one starts. -/
def makeTasks (launched : List JobRecord) : Effect :=
  match o.makeFails with
  | some m =>
    { Effect.pass cyc w with code := [.gateFail (launched.map (·.jobKey)) launched m []] }
  | none => { Effect.pass cyc w with code := [.checkFinished launched] }

/-- A cycle that finished during the reset is not armed. -/
def checkFinished (launched : List JobRecord) : Effect :=
  if cyc.finished then { Effect.pass cyc w with signals := [.gateRejected] }
  else { Effect.pass cyc w with code := [.announce launched] }

/-- ④ of `_launch_cycle` -/
def announce (launched : List JobRecord) : Effect :=
  { Effect.pass cyc w with
    signals := .recordsReset launched :: batch launched
    code := [if launched = [] then .finishIfDone true else .fanOut launched] }

/-- ⑤ of `_launch_cycle`, one task at a time; a task has the argv that its key came with. -/
def fanOut (todo : List JobRecord) : Effect :=
  match todo with
  | [] => .pass cyc w
  | r :: todo =>
    { Effect.pass cyc w with
      code := [.fanOut todo]
      spawned := [[.enter r.jobKey ⟨0, (cyc.argvOf r.jobKey).getD []⟩, .leave r.jobKey]] }

/-- `_gate_reject` -/
def gateReject (finish : Bool) : Effect :=
  { Effect.pass cyc w with
    signals := [.gateRejected], code := [.finishForced cyc.keys false finish] }

/-- `_gate_fail`: what was reset and not started is turned into a failure, one record at a time. -/
def gateFail (keys : List Key) (todo : List JobRecord) (message : String)
    (stuck : List JobRecord) : Effect :=
  match todo with
  | [] =>
    { Effect.pass cyc w with
      signals := batch stuck ++ [.error ("pre_submit: " ++ message), .gateRejected]
      code := [.finishForced keys true true] }
  | r :: todo =>
    match w.store.transition o.now P.jobsetId r.jobKey (some .submitFailed)
        (Guard.of fun cur => cur.sameExecution r && cur.state = .submitting)
        [.failReason (some "LAUNCH_FAILED"), .failMessage (some (clip message))] with
    | .error _ => { Effect.pass cyc w with code := [.gateFail keys todo message stuck] }
    | .ok (rec, store) =>
      { Effect.pass cyc w with
        store, code := [.gateFail keys todo message (stuck ++ rec.toList)] }

/-- `_finish_forced`; its callers then drop the context. -/
def finishForced (keys : List Key) (failed emit : Bool) : Effect :=
  if cyc.finished then { Effect.pass cyc w with code := [.unregister, .dropContext] }
  else
    { Effect.pass cyc w with
      cyc := cyc.forceDone keys failed
      signals := if emit then [.finished (cyc.forceDone keys failed).report] else []
      code := [.unregister, .dropContext] }

/-! ## The dispatch -/

/-- Run one instruction of a thread of cycle `c`; `none` where it blocks. -/
def exec : Instr → Option Effect
  | .enter k a => some (enterInflight cyc w k a)
  | .toSubmitting k a => some (toSubmitting P o cyc w k a)
  | .slotWait k a => slotWait o cyc w k a
  | .slotHeld k a => some (slotHeld cyc w k a)
  | .running k a => some (runSubmit o cyc w k a)
  | .succeeded k n => some (taskSucceeded P o cyc w k n)
  | .failed k a e => some (taskFailed cyc w k a e)
  | .retryCheck k a e => some (retryCheck cyc w k a e)
  | .toRetryWait k a e => some (toRetryWait P o cyc w k a e)
  | .retried k => some (markRetried cyc w k)
  | .schedule k a => some (scheduleRetry cyc w k a)
  | .requestRetry k => some (requestRetry cyc w k)
  | .toSubmitFailed k a e => some (toSubmitFailed P o cyc w k a e)
  | .cancelled k => some (markCancelled P o cyc w k)
  | .crashed k m => some (taskCrashed P o cyc w k m)
  | .releaseSlot => some (releaseSlot cyc w)
  | .leave k => some (leaveInflight cyc w k)
  | .note r => some (note cyc w r)
  | .count ks out ch => some (count cyc w ks out ch)
  | .emitProgress b => some (emitProgress o cyc w b)
  | .finishIfDone b => some (finishIfDone cyc w b)
  | .unregister => some (unregister c cyc w)
  | .dropContext => some (dropContext c cyc w)
  | .onRetryRequested k => some (onRetryRequested cyc w k)
  | .fire k => some (fire cyc w k)
  | .fired k a => some (fired cyc w k a)
  | .giveUp k r => some (finalizeRetry P cyc w k r)
  | .giveUpWrite k r => some (finalizeRetryWrite P o cyc w k r)
  | .register b => some (registerCycle c cyc w b)
  | .newContext reg b => some (newContext cyc w reg b)
  | .startLaunch b => some (startLaunch cyc w b)
  | .preSubmitStart => some (preSubmitStart cyc w)
  | .preSubmitRun => some (preSubmitRun P o cyc w)
  | .preSubmitOk => some (preSubmitOk cyc w)
  | .launch => some (launchCycle cyc w)
  | .readBlocked => some (readBlocked cyc w)
  | .readPrevious b => some (readPrevious P cyc w b)
  | .reset todo b prev l st sk => some (resetRecords P o cyc w todo b prev l st sk)
  | .makeTasks l => some (makeTasks o cyc w l)
  | .checkFinished l => some (checkFinished cyc w l)
  | .announce l => some (announce cyc w l)
  | .fanOut todo => some (fanOut cyc w todo)
  | .gateReject f => some (gateReject cyc w f)
  | .gateFail ks todo m st => some (gateFail P o cyc w ks todo m st)
  | .finishForced ks f e => some (finishForced cyc w ks f e)

end Functions

end Lsfmgr.Submit
