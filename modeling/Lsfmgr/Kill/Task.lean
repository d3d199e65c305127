import Mathlib
import Lsfmgr.Machinery.Amid
import Lsfmgr.Kill.Mark
import Lsfmgr.Kill.Ranges
import Lsfmgr.Monitor.Querier
import Lsfmgr.Store.Counts

/-!
# Kill/Task — `_KillTask`, a kill from its plan to its report

The stages come in a fixed order: the submissions are stopped, the keys are turned into targets, the
plan is made, `bkill` is confirmed, the survivors are looked for, and what is left of the accepted
targets is marked.  The store is shared with everything else: each read and each write of it is one
call amid what the others do.  A look at the survivors by jobset is a status query, which writes
what it finds to the store in the thread of the kill.
-/

namespace Lsfmgr.Kill

open Machinery Command

/-- What a part of a kill may raise. -/
inductive Failure
  | store (e : StoreError)
  | kill (e : KillError)
  | int (e : PyError)
  /-- A status query raises an `LsfmgrError`… -/
  | query
  /-- …or something else, as when its process cannot be started. -/
  | foreign
  deriving DecidableEq

/-- `except LsfmgrError` around a status query -/
def Failure.isLsfmgrError : Failure → Bool
  | .store e => e.isRecordGone
  | .query => true
  | .kill _ | .int _ | .foreign => false

/-- `except RECORD_GONE` -/
def Failure.isRecordGone : Failure → Bool
  | .store e => e.isRecordGone
  | _ => false

/-- `sorted` of a set -/
abbrev sorted {α : Type} [LinearOrder α] (s : Finset α) : List α := s.sort (· ≤ ·)

/-- What a query of a jobset returns to a kill. -/
structure Queried where
  failed : Finset ℕ := ∅
  changed : List JobRecord := []

/-- What a kill meets: the others and the clock at each of its calls, and what LSF answers. -/
structure World where
  others : ℕ → InMemoryStore → InMemoryStore
  clock : ℕ → Time
  bkill : ℕ → List Text → BkillAnswer
  order : ℕ → List (List Text) → List (List Text)
  /-- The query of a round whose `bkill` has timed out. -/
  requery : ℕ → List ℕ → Option (List JobStatus × Finset ℕ)
  queryIds : ℕ → List ℕ → Except Failure (List JobStatus × Finset ℕ)
  /-- The absences the querier has counted for a jobset, when they are taken out. -/
  streaks : ℕ → String → Monitor.Streaks
  /-- `repr` of a list of targets -/
  repr : List Text → Text
  /-- `repr` of an exception -/
  describe : Failure → Text

/-- The parts of the configuration a kill reads. -/
structure Policy where
  command : Command.Config
  monitor : Monitor.Config
  killMaxRetry : ℕ
  /-- `kill_status_policy == "optimistic"` -/
  optimistic : Bool

/-- What a kill is aimed at: the whole jobset, ids as they are written, or keys. -/
inductive Aim
  | jobset
  | ids (jobIds : List Text)
  | keys (jobKeys : List String)

/-- `_KillTask` -/
structure Task where
  jobsetId : String
  aim : Aim
  verify : Bool := false
  /-- What `scope.acquire` answers, where there is a scope. -/
  quiesced : Option Bool := none

/-- `_KillPlan`; `recTarget` is `none` where `str` raises. -/
structure Plan where
  recs : Option (List JobRecord)
  targets : List Text
  requested : ℕ
  recTarget : ℕ → Option ℕ → Option Text
  label : String

/-- The target of a record that has an id. -/
def Plan.targetOf (plan : Plan) (r : JobRecord) : Option Text :=
  r.jobId.bind fun jobId => plan.recTarget jobId r.arrayIndex

/-- `KillReport` -/
structure KillReport where
  jobsetId : String
  requested : ℕ
  strategies : List String := []
  commandCalls : ℕ := 0
  stillAlive : Option ℕ := none
  unconfirmed : ℕ := 0
  killRetries : ℕ := 0
  changed : List JobRecord := []
  errors : List Text := []

/-- What the stages have found; it is not read. -/
structure Notes where
  plan : Option Plan := none
  confirmed : Option KillConfirmed := none
  alive : Option (List (String × String)) := none
  /-- The records marking has gone through. -/
  pool : Option (List JobRecord) := none

/-- A part of a kill. -/
abbrev Stage (α : Type) : Type := Prog (Amid InMemoryStore Notes) Failure α

section

variable (py : Python) (w : World) (policy : Policy) (task : Task)

/-! ## Calls -/

/-- A read of the store. -/
def read {α : Type} (f : InMemoryStore → Except StoreError α) : Stage α :=
  Amid.call w.others fun _ s => ((f s).mapError .store, s)

/-- A question that does not touch the store. -/
def ask {α : Type} (f : ℕ → Except Failure α) : Stage α := Amid.call w.others fun n s => (f n, s)

/-- A compare-and-set write. -/
def write (f : InMemoryStore → Time → Except StoreError (Option JobRecord × InMemoryStore)) :
    Stage (Option JobRecord) :=
  Amid.call w.others fun n s =>
    match f s (w.clock n) with
    | .ok (r, s) => (.ok r, s)
    | .error e => (.error (.store e), s)

/-- A batch of compare-and-set writes. -/
def writeMany (jobsetId : String) (specs : List TransitionSpec) : Stage (List JobRecord) :=
  Amid.call w.others fun n s =>
    let (out, s) := s.transitionMany (w.clock n) jobsetId specs
    (out.mapError .store, s)

/-- A conversion between strings and numbers, `none` where it raises. -/
def orValueError {α : Type} (x : Option α) : Stage α :=
  Prog.ofExcept (match x with
    | some a => .ok a
    | none => .error (.int .valueError))

/-! ## The plan -/

/-- `_quiesce` -/
def quiesce (errors : List Text) : List Text :=
  if task.quiesced = some false then
    errors ++ ["quiesce: submit 정지 대기 초과 — 그 사이 제출된 job이 kill에서 빠졌을 수 있음".toList]
  else errors

/-- `_resolve_keys` -/
def resolveKeys (jobKeys : List String) : Stage (List Text) := do
  let pool ← read w fun s =>
    if task.jobsetId ≠ "" then s.getJobs task.jobsetId else .ok (s.findJobsByKeys jobKeys)
  orValueError ((pool.filter fun r => r.jobKey ∈ jobKeys ∧ r.jobId.isSome).mapM fun r =>
    r.jobId.bind fun jobId => idStr? py jobId r.arrayIndex)

/-- `job_ids`, after the keys are resolved -/
def jobIds : Stage (Option (List Text)) :=
  match task.aim with
  | .jobset => pure none
  | .ids jobIds => pure (some jobIds)
  | .keys jobKeys => do
    let jobIds ← resolveKeys py w task jobKeys
    pure (some jobIds)

/-- `_make_plan` -/
def makePlan : Option (List Text) → Stage Plan
  | some jobIds => pure
      { recs := none, targets := jobIds, requested := jobIds.length, recTarget := idStr? py
        label := "chunk" }
  | none => do
    let _ ← read w (·.getJobset task.jobsetId)
    let jobs ← read w (·.getJobs task.jobsetId)
    let recs := jobs.filter (·.state.isOnLsf)
    let targets ← orValueError ((recs.filterMap (·.jobId)).mapM py.str?)
    pure
      { recs := some recs, targets := sorted targets.toFinset, requested := recs.length
        recTarget := fun jobId _ => py.str? jobId, label := "chunk" }

/-- `_record_pool` -/
def recordPool (jobIds : List Text) : Stage (List JobRecord) :=
  if task.jobsetId ≠ "" then read w (·.getJobs task.jobsetId)
  else do
    let pids ← Prog.ofExcept ((jobIds.mapM (targetParentId py)).mapError .int)
    read w fun s => .ok (s.findJobs pids.reduceOption)

/-! ## The confirmation -/

/-- `_kill_confirm`, if there is a target -/
def confirm (plan : Plan) (errors : List Text) : Stage KillConfirmed :=
  if plan.targets = [] then
    pure { calls := 0, unconfirmed := 0, retries := 0, accepted := ∅, resolved := ∅,
           errors, rounds := [] }
  else Prog.ofExcept
    ((killConfirm (bkillOf py policy.command w.order w.bkill) (requeryOf py w.requery) w.repr
    policy.killMaxRetry plan.targets errors).mapError .kill)

/-! ## The status query -/

/-- The ids of the records, sorted. -/
def targetIds (targets : List JobRecord) : List ℕ := sorted (targets.filterMap (·.jobId)).toFinset

/-- The rows for the records, if one of them has an id. -/
def askRows (targets : List JobRecord) : Stage (List JobStatus × Finset ℕ) :=
  if targetIds targets = [] then pure ([], ∅) else ask w (w.queryIds · (targetIds targets))

/-- `query`, in the thread of the kill -/
def query (jobsetId : String) : Stage Queried := do
  let _ ← read w (·.getJobset jobsetId)
  let targets ← read w (·.getJobs jobsetId (some JobState.isOnLsf))
  if targets = [] then do
    let _ ← read w (·.summary jobsetId)
    pure {}
  else do
    let (rows, failed) ← askRows w targets
    let (prev, now) ← ask w fun n => .ok (w.streaks n jobsetId, w.clock n)
    let v : Monitor.View := { targets, rows, failed, now }
    let changed ← writeMany w jobsetId (Monitor.updateSpecs policy.monitor v)
    let lost ← writeMany w jobsetId (Monitor.lostSpecs (Monitor.lostRecords policy.monitor v prev))
    let _ ← read w (·.summary jobsetId)
    pure { failed, changed := changed ++ lost }

/-! ## The survivors -/

/-- What `_verify` returns. -/
structure Verified where
  stillAlive : Option ℕ := none
  alive : List (String × String) := []
  changed : List JobRecord := []

/-- `_alive_in` on records -/
def aliveRecords (pool : List JobRecord) (cls : Classes) : List JobRecord :=
  (matchingRecords pool cls).filter (·.state.isOnLsf)

/-- `_alive_in` on the rows of a query -/
def aliveRows (pool : List JobStatus) (cls : Classes) : List JobStatus :=
  (matching pool cls).filter (·.state.isOnLsf)

def keyOf (r : JobRecord) : String × String := (r.jobsetId, r.jobKey)

/-- `_verify_in_jobset` -/
def verifyInJobset (cls : Classes) : Stage Verified := do
  match ← Amid.catching Failure.isLsfmgrError (query w policy task.jobsetId) with
  | none => pure {}
  | some qr =>
    let jobs ← read w (·.getJobs task.jobsetId)
    let alive := aliveRecords jobs cls
    let known := alive.filter fun r => r.jobId.all (· ∉ qr.failed)
    pure
      { stillAlive := if known.length = alive.length then some known.length else none
        alive := known.map keyOf, changed := qr.changed }

/-- `_verify_direct` -/
def verifyDirect (cls : Classes) : Stage (Option (List JobStatus)) :=
  let pids := cls.whole ∪ cls.exact.image Prod.fst ∪ (cls.ranges.map Prod.fst).toFinset
  if pids = ∅ then pure (some [])
  else do
    match ← Amid.catching Failure.isLsfmgrError (ask w (w.queryIds · (sorted pids))) with
    | none => pure none
    | some (sts, failed) => pure (if failed = ∅ then some sts else none)

/-- `_verify_global` -/
def verifyGlobal (jobIds : List Text) (cls : Classes) : Stage Verified := do
  match ← verifyDirect w cls with
  | none => pure {}
  | some pool =>
    let alive := aliveRows pool cls
    if alive = [] then pure { stillAlive := some 0 }
    else
      let recs ← Amid.catching (fun _ => true) (recordPool py w task jobIds)
      let recs := (recs.getD []).filter fun r =>
        match r.arrayIndex with
        | none => alive.any fun st => r.jobId = some st.jobId
        | some index => alive.any fun st => r.jobId = some st.jobId ∧ st.arrayIndex = some index
      if recs = [] then pure { stillAlive := some alive.length }
      else pure { stillAlive := some recs.length, alive := recs.map keyOf }

/-- `_verify` -/
def verify (jobIds : List Text) (targets : Finset Text) : Stage Verified :=
  if targets = ∅ then pure { stillAlive := some 0 }
  else do
    let cls ← Prog.ofExcept ((classifyTargets py (sorted targets)).mapError .int)
    if task.jobsetId ≠ "" then verifyInJobset w policy task cls
      else verifyGlobal py w task jobIds cls

/-- `_refresh_tracked` -/
def refreshTracked (jobIds : List Text) : Stage (List JobRecord) := do
  match ← Amid.catching (fun _ => true) (recordPool py w task jobIds) with
  | none => pure []
  | some recs =>
    let changed ← Prog.each (fun jobsetId => do
      let qr ← Amid.catching Failure.isLsfmgrError (query w policy jobsetId)
      pure (qr.elim [] Queried.changed)) (sorted (recs.map (·.jobsetId)).toFinset)
    pure changed.flatten

/-- The look at what is left, if it was asked for or something is gone that was not accepted. -/
def survivors (plan : Plan) (jobIds : List Text) (c : KillConfirmed) : Stage Verified :=
  let gone := c.resolved \ c.accepted
  if task.verify ∨ gone ≠ ∅ then do
    let v ← verify py w policy task jobIds plan.targets.toFinset
    if gone ≠ ∅ ∧ task.jobsetId = "" then
      let changed ← refreshTracked py w policy task jobIds
      pure { v with changed := v.changed ++ changed }
    else pure v
  else pure {}

/-! ## The marks -/

/-- The records to choose from: those of the plan, or, where it has none, the ones read now; `none`
where the read raises. -/
def markPool (plan : Plan) (jobIds : List Text) : Stage (Option (List JobRecord)) :=
  match plan.recs with
  | some recs => pure (some recs)
  | none => Amid.catching (fun _ => true) (recordPool py w task jobIds)

/-- The records that are marked. -/
def killedRecords (plan : Plan) (accepted : Finset Text) (alive : List (String × String))
    (recs : List JobRecord) : Stage (List JobRecord) :=
  orValueError (if ∃ r ∈ recs, r.jobId.isSome ∧ plan.targetOf r = none then none
    else some (recs.filter fun r => (plan.targetOf r).any (· ∈ accepted) ∧ keyOf r ∉ alive))

/-- The writes for one record, up to the first that is done. -/
def markOne (r : JobRecord) : Stage (Option JobRecord) := do
  let new ← if policy.optimistic then write w (markExit · · r) else pure none
  match new with
  | some new => pure (some new)
  | none => write w (markFlag · · r)

/-- The body of the loop. -/
def markStep (r : JobRecord) : Stage (Option JobRecord) := do
  let new ← Amid.catching Failure.isRecordGone (markOne w policy r)
  pure (new.join.filter fun new => policy.optimistic ∨ new.state.isTerminal)

/-- `_mark_killed` -/
def markKilled (plan : Plan) (jobIds : List Text) (accepted : Finset Text)
    (alive : List (String × String)) : Stage (List JobRecord) :=
  if accepted = ∅ then pure []
  else do
    match ← markPool py w task plan jobIds with
    | none => pure []
    | some recs =>
      Amid.jot fun notes => { notes with pool := some recs }
      let killed ← killedRecords plan accepted alive recs
      let changed ← Prog.each (markStep w policy) killed
      pure changed.reduceOption

/-! ## The kill -/

/-- The last record of each key. -/
def lastOfEach (records : List JobRecord) : List JobRecord :=
  (records.foldl (fun (d : Dict (String × String) JobRecord) r => d.set (keyOf r) r) ∅).values

/-- `_run_kill` -/
def runKill : Stage KillReport := do
  let errors := quiesce task []
  let ids ← jobIds py w task
  let plan ← makePlan py w task ids
  Amid.jot fun notes => { notes with plan := some plan }
  let c ← confirm py w policy plan errors
  Amid.jot fun notes => { notes with confirmed := some c }
  let v ← survivors py w policy task plan (ids.getD []) c
  Amid.jot fun notes => { notes with alive := some v.alive }
  let changed ← markKilled py w policy task plan (ids.getD []) c.accepted v.alive
  pure
    { jobsetId := task.jobsetId, requested := plan.requested
      strategies := if plan.targets = [] then [] else [plan.label]
      commandCalls := c.calls, stillAlive := v.stillAlive, unconfirmed := c.unconfirmed
      killRetries := c.retries, changed := lastOfEach (v.changed ++ changed), errors := c.errors }

/-- The report of a kill that has run, or has raised. -/
def reportOf (jobsetId : String) : Except Text KillReport → KillReport
  | .ok report => report
  | .error what => { jobsetId := jobsetId, requested := 0, errors := ["internal: ".toList ++ what] }

/-- `run`: the report that is delivered, and the text of the error signal. -/
def run (store : InMemoryStore) :
    KillReport × Option Text × Amid InMemoryStore Notes :=
  match runKill py w policy task { shared := store, notes := {} } with
  | (.ok report, a) => (reportOf task.jobsetId (.ok report), none, a)
  | (.error e, a) => (reportOf task.jobsetId (.error (w.describe e)), some (w.describe e), a)

end

end Lsfmgr.Kill
