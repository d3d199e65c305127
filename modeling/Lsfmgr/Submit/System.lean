import Mathlib
import Lsfmgr.Machinery.Pool
import Lsfmgr.Machinery.Transition
import Lsfmgr.Store.Targets
import Lsfmgr.Monitor.Merge
import Lsfmgr.Kill.Mark
import Lsfmgr.Submit.Task

/-!
# Submit/System — the submissions of one jobset, its kills, and everything else that writes to it

A state is what the threads share, the pool of the submitter's threads, and the kills.  A step is
one instruction of one thread, one section of one kill, or one operation of the rest of the library
on the jobset: a poll's write, `detect_lost`, a kill mark, an edit, a removal.

The pool runs its threads in any order, and a retry timer fires at any time after it is set: it is a
thread like the others.
-/

namespace Lsfmgr.Submit

open Machinery

/-- Where a kill stands.  The lists are the activities still to be cancelled or waited for. -/
inductive KillPhase
  | queued
  /-- `begin()`: the cancel callbacks; `flagged` says the first one has set its flags and has still
  to abort the retries. -/
  | cancelling (acts todo : List ℕ) (flagged : Bool)
  /-- `acquire()`: the wait callbacks. -/
  | waiting (todo : List ℕ) (ok : Bool)
  | acquired (ok : Bool)
  | released
  deriving DecidableEq

/-- `KillScope` -/
structure Kill where
  scope : Scope
  phase : KillPhase := .queued
  deriving DecidableEq

structure State where
  shared : Shared
  threads : List Thread := []
  kills : List Kill := []

inductive Act
  /-- The thread at this index runs its next instruction. -/
  | thread (i : ℕ) (o : Oracle)
  | submit (only : Option (List Ref)) (maxRetry workers : ℕ) (preSubmit : Bool)
  /-- `cancel_submit`, and the loop of `shutdown`, raise the cancel event… -/
  | cancelSubmit
  /-- …and abort the waiting retries of a cancelled cycle. -/
  | abortRetries (c : ℕ) (how : Settlement)
  | shutdown
  | newKill (scope : Scope)
  /-- The kill at this index runs its next section; a wait may run out of time. -/
  | kill (j : ℕ) (timeout : Bool)
  /-- The kill is released without having been acquired: its task could not be queued. -/
  | refuseKill (j : ℕ)
  | poll (rec : JobRecord) (st : JobStatus) (runtimeUpdates collectClusters : Bool) (now : Time)
  | pollLost (rec : JobRecord) (now : Time)
  | detectLost (rec : JobRecord) (now : Time)
  | markExit (target : JobRecord) (now : Time)
  | markFlag (target : JobRecord) (now : Time)
  | setUserData (k : Key) (data : Option String) (now : Time)
  | addJob (k : Key) (command : String) (data cwd : Option String) (now : Time)
  | replaceJob (k : Key) (command : String) (data cwd : Option String) (now : Time)
  | removeJob (k : Key)
  | removeJobset

namespace Shared

/-- The flags of `_cancel_scope`. -/
def cancelScope (w : Shared) (c : ℕ) (scope : Scope) : Shared :=
  match w.cycles[c]? with
  | none => w
  | some cyc => w.setCycle c (match scope with
    | none => { cyc with cancelEvent := true }
    | some ks => { cyc with cancelledKeys := cyc.cancelledKeys ∪ ks })

/-- `_abort_retries_ctx`: pop the entries within the scope, and the thread that settles them. -/
def abortRetries (w : Shared) (c : ℕ) (scope : Scope) (how : Settlement) (reason : String) :
    Shared × List Thread :=
  match w.cycles[c]? with
  | none => (w, [])
  | some cyc =>
    let (popped, cyc) := cyc.popRetries how (cyc.pendingRetries.keys.filter scope.Covers)
    (w.setCycle c cyc, [⟨c, popped.map fun k => .giveUp k reason⟩])

/-- `_wait_scope`'s test: the keys of the scope that are inside the submission section. -/
def busy (w : Shared) (c : ℕ) (scope : Scope) : Finset Key :=
  match w.cycles[c]? with
  | none => ∅
  | some cyc => scope.restrict cyc.inflight

/-- The record `add_jobs` and `replace_jobs` make. -/
def newRecord (P : Params) (w : Shared) (k : Key) (command : String) (data cwd : Option String) :
    JobRecord where
  jobsetId := P.jobsetId
  jobKey := k
  command := command
  userData := data
  submitCwd := cwd
  generation := w.nextGen

end Shared

namespace State

def setKill (s : State) (j : ℕ) (kl : Kill) : State := { s with kills := s.kills.set j kl }

/-- The next section of a kill; `none` where it blocks. -/
def stepKill (s : State) (j : ℕ) (timeout : Bool) : Option State :=
  match s.kills[j]? with
  | none => none
  | some kl =>
    match kl.phase with
    | .queued =>
      let (acts, gate) := s.shared.gate.barrierUp j kl.scope
      some ({ s with shared := { s.shared with gate } }.setKill j
        { kl with phase := .cancelling acts acts false })
    | .cancelling acts [] _ => some (s.setKill j { kl with phase := .waiting acts true })
    | .cancelling acts (c :: todo) false =>
      some ({ s with shared := s.shared.cancelScope c kl.scope }.setKill j
        { kl with phase := .cancelling acts (c :: todo) true })
    | .cancelling acts (c :: todo) true =>
      let (shared, spawned) := s.shared.abortRetries c kl.scope .aborted "KILLED"
      some ({ s with shared, threads := s.threads ++ spawned }.setKill j
        { kl with phase := .cancelling acts todo false })
    | .waiting [] ok => some (s.setKill j { kl with phase := .acquired ok })
    | .waiting (c :: todo) ok =>
      if s.shared.busy c kl.scope = ∅ then
        some (s.setKill j { kl with phase := .waiting todo ok })
      else if timeout then some (s.setKill j { kl with phase := .waiting todo false })
      else none
    | .acquired _ =>
      some ({ s with shared := { s.shared with gate := s.shared.gate.barrierDown j } }.setKill j
        { kl with phase := .released })
    | .released => none

/-- The next instruction of the thread at index `i`. -/
def stepThread (P : Params) (s : State) (i : ℕ) (o : Oracle) : Option State :=
  match s.threads[i]? with
  | none => none
  | some t =>
    match t.code, s.shared.cycles[t.cycle]? with
    | x :: rest, some cyc =>
      (exec P o t.cycle cyc s.shared x).map fun e =>
        { s with
          shared := s.shared.apply t.cycle e
          threads := replaceAt s.threads i
            (({ t with code := e.code ++ rest } : Thread) :: e.spawned.map (Thread.mk t.cycle)) }
    | _, _ => none

/-- `submit`: refused while a cycle is active, after shutdown, or without valid targets. -/
def submit (P : Params) (s : State) (only : Option (List Ref)) (maxRetry workers : ℕ)
    (preSubmit : Bool) : Option State :=
  if s.shared.isActive ∨ s.shared.shutdown then none
  else
    match submitTargets s.shared.store P.jobsetId only with
    | .error _ => none
    | .ok targets =>
      let c := s.shared.cycles.length
      let cyc : Cycle :=
        { keyed := targets.map fun r => (r.jobKey, P.split r.command)
          maxRetry := maxRetry
          slotLimit := max 1 (min workers P.workers) }
      some { s with
        shared := { s.shared with cycles := s.shared.cycles ++ [cyc], contexts := some c }
        threads := s.threads ++ [⟨c, [.register preSubmit]⟩] }

/-- Put the store of a write in place; an operation that raises, or writes nothing, is no step. -/
def write {α : Type} (s : State) : Except StoreError (α × InMemoryStore) → Option State
  | .ok (_, store) => some { s with shared := { s.shared with store } }
  | .error _ => none

/-- One step of the system. -/
def step (P : Params) (s : State) : Act → Option State
  | .thread i o => s.stepThread P i o
  | .submit only maxRetry workers preSubmit => s.submit P only maxRetry workers preSubmit
  | .cancelSubmit =>
    s.shared.contexts.map fun c => { s with shared := s.shared.cancelScope c none }
  | .abortRetries c how =>
    match s.shared.cycles[c]? with
    | none => none
    | some cyc =>
      if cyc.cancelEvent ∧ (how = .shutDown → s.shared.shutdown) then
        let (shared, spawned) := s.shared.abortRetries c none how
          (if how = .shutDown then "SHUTDOWN" else "CANCELLED")
        some { s with shared, threads := s.threads ++ spawned }
      else none
  | .shutdown => some { s with shared := { s.shared with shutdown := true } }
  | .newKill scope => some { s with kills := s.kills ++ [{ scope }] }
  | .kill j timeout => s.stepKill j timeout
  | .refuseKill j =>
    match s.kills[j]? with
    | some ⟨scope, .waiting _ _⟩ =>
      some ({ s with shared := { s.shared with gate := s.shared.gate.barrierDown j } }.setKill j
        ⟨scope, .released⟩)
    | _ => none
  | .poll rec st ru cc now =>
    if rec.state.isOnLsf ∧ rec.jobId.isSome ∧ st.state.isReported then
      match mergeFields rec st ru cc with
      | none => none
      | some fields => s.write (s.shared.store.transition now P.jobsetId rec.jobKey
          (some st.state) (Guard.of (unchanged rec)) fields)
    else none
  | .pollLost rec now =>
    if rec.state.isOnLsf ∧ rec.jobId.isSome then
      s.write (s.shared.store.transition now P.jobsetId rec.jobKey (some .lost)
        (Guard.of (unchanged rec)) [.failReason (some "NOT_FOUND_IN_LSF")])
    else none
  | .detectLost rec now =>
    if rec.jobId = none ∧ rec.state = .submitting then
      s.write (s.shared.store.transition now P.jobsetId rec.jobKey (some .lost)
        (Guard.of (stillLost rec))
        [.failReason (some ((rec.failReason.filter (· ≠ "")).getD "NO_JOBID_PARSED"))])
    else none
  | .markExit target now =>
    if target.jobId.isSome then s.write (Kill.markExit s.shared.store now target) else none
  | .markFlag target now =>
    if target.jobId.isSome then s.write (Kill.markFlag s.shared.store now target) else none
  | .setUserData k data now =>
    s.write (s.shared.store.transition now P.jobsetId k none none [.userData data])
  | .addJob k command data cwd now =>
    if s.shared.isActive then none
    else
      (s.write (s.shared.store.storeAddJob now (s.shared.newRecord P k command data cwd))).map
        fun s => { s with shared := { s.shared with nextGen := s.shared.nextGen + 1 } }
  | .replaceJob k command data cwd now =>
    if s.shared.isActive then none
    else
      (s.write (s.shared.store.updateJob now (s.shared.newRecord P k command data cwd))).map
        fun s => { s with shared := { s.shared with nextGen := s.shared.nextGen + 1 } }
  | .removeJob k => s.write (s.shared.store.storeDeleteJob P.jobsetId k)
  | .removeJobset =>
    some { s with shared := { s.shared with
      store := s.shared.store.storeDeleteJobset P.jobsetId } }

end State

/-- The records a system starts with: placed, and with generations below the counter. -/
structure Shared.Initial (P : Params) (w : Shared) : Prop where
  cycles : w.cycles = []
  contexts : w.contexts = none
  gate : w.gate = {}
  log : w.log = []
  placed : w.store.Placed
  gens : ∀ k r, w.store.job? P.jobsetId k = some r → r.generation < w.nextGen

/-- The submission system of one jobset. -/
def system (P : Params) : System State Act where
  init s := s.shared.Initial P ∧ s.threads = [] ∧ s.kills = []
  step := State.step P

/-! ## One job

The smallest system, on which later modules exhibit runs. -/

def oneJobParams : Params where
  jobsetId := "js"
  split := fun command => [command]
  join := fun item => item.headD ""
  workers := 2
  submitFinishedOnGateReject := true

def oneJobRecord : JobRecord where
  jobsetId := "js"
  jobKey := "a"
  command := "submit a"
  generation := 0

/-- One jobset with one job that was never submitted. -/
def oneJob : State where
  shared :=
    { store :=
        { jobsets := Dict.empty.set "js" { jobsetId := "js", intendedCount := 1 }
          jobs := Dict.empty.set "js" (Dict.empty.set "a" oneJobRecord)
          counts := Dict.empty.set "js" (Dict.empty.set .created 1) }
      nextGen := 1 }

theorem oneJob_init : (system oneJobParams).init oneJob := by
  have hjob : ∀ js k r, oneJob.shared.store.job? js k = some r →
      js = "js" ∧ k = "a" ∧ r = oneJobRecord := by
    intro js k r h
    simp only [oneJob, InMemoryStore.job?, Dict.get?_set] at h
    split at h
    case isTrue hjs =>
      rw [Option.bind_some, Dict.get?_set] at h
      split at h
      case isTrue hk => exact ⟨hjs, hk, (Option.some.inj h).symm⟩
      case isFalse => cases h
    case isFalse => cases h
  refine ⟨⟨rfl, rfl, rfl, rfl, ⟨fun js => ?_, fun js k r h => ?_⟩, fun k r h => ?_⟩, rfl, rfl⟩
  · simp only [oneJob, Dict.mem_keys_set]
    rfl
  · obtain ⟨rfl, rfl, rfl⟩ := hjob js k r h
    exact ⟨rfl, rfl⟩
  · obtain ⟨-, -, rfl⟩ := hjob _ k r h
    decide

/-- The thread at index `i` runs `n` instructions that read nothing from outside. -/
def threadSteps (i n : ℕ) : List Act := List.replicate n (.thread i {})

/-- The kill at index `j` runs `n` sections. -/
def killSteps (j n : ℕ) : List Act := List.replicate n (.kill j false)

/-- The call of `run_submit` by the thread at index `i`. -/
def submitResult (i : ℕ) (result : SubmitResult) : List Act := [.thread i { result }]

/-- A submission whose first attempt fails and whose retry has started. -/
def oneJobRetrying : List Act :=
  [[.submit none 1 2 false], threadSteps 0 12, threadSteps 1 4,
    submitResult 1 (.submitError { failReason := "BSUB_EXIT_1" }), threadSteps 1 8,
    threadSteps 2 1, threadSteps 3 2].flatten

/-- The same, until the retry has succeeded and the cycle is finished. -/
def oneJobRetried : List Act :=
  [oneJobRetrying, threadSteps 1 2, threadSteps 4 6, submitResult 4 (.jobId 7),
    threadSteps 4 4].flatten

end Lsfmgr.Submit
