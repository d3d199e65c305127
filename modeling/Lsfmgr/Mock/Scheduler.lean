import Mathlib
import Lsfmgr.Machinery.Dict
import Lsfmgr.Mock.Database
import Lsfmgr.Mock.Formats

/-!
# Mock/Scheduler — what a tick decides from the rows it has read

A tick writes twice: the transitions of the active jobs, and the dispatches.  The second decision is
taken on rows that are read again, with a running total of the slots it has given away itself.
-/

namespace Lsfmgr.Mock

open Machinery
open Command (Text)

/-- The configuration of the cluster. -/
structure Cluster where
  /-- `HOSTS`: the slots of each host. -/
  hosts : Dict Text ℕ
  /-- The priorities of `QUEUES`. -/
  queues : Dict Text ℤ := ∅
  /-- `MAX_DISPATCH_PER_TICK` -/
  maxDispatch : ℤ := 200
  isSpace : Char → Bool
  /-- A job whose host has no name would hold no slots. -/
  named : [] ∉ hosts.keys

namespace Cluster

variable (cl : Cluster)

/-- The slots of a host; one that is not configured has none. -/
def slots (host : Text) : ℕ := (cl.hosts.get? host).getD 0

end Cluster

/-- `_active_by_host` -/
def activeByHost (active : List Job) (host : Text) : ℕ :=
  (active.map fun j => if j.execHost = some host ∧ host ≠ [] then j.numCpus else 0).sum

/-- The active elements of each array. -/
def activeByArray (active : List Job) (jobId : ℕ) : ℕ :=
  (active.map fun j => if j.arrayIndex.isSome ∧ j.jobId = jobId then 1 else 0).sum

section

variable (cl : Cluster)

/-- The hosts a job may be put on: those it has asked for, or all where none of them is known. -/
def candidates (job : Job) : List Text :=
  let wanted := words cl.isSpace job.requestedHosts
  match cl.hosts.keys.filter (· ∈ wanted) with
  | [] => cl.hosts.keys
  | filtered => filtered

/-- `_pick_host`: the host with the most free slots, the first of them. -/
def pickHost (job : Job) (used : Text → ℕ) : Option Text :=
  ((candidates cl job).foldl (fun (best : Option Text × ℤ) h =>
    let free : ℤ := cl.slots h - used h
    if (job.numCpus : ℤ) ≤ free ∧ best.2 < free then (some h, free) else best) (none, -1)).1

/-- `_finish` -/
def finish (now : ℚ) (job : Job) : Job :=
  let exitCode := if job.plannedOutcome = .exit ∧ job.exitCode = 0 then 1 else job.exitCode
  { job with
    stat := job.plannedOutcome, finishTime := some now
    exitCode := if job.plannedOutcome = .done then 0 else exitCode }

/-- `_dispatch` -/
def dispatch (now : ℚ) (host : Text) (job : Job) : Job :=
  { job with
    stat := .run, execHost := some host, startTime := some now
    finishTime := some (now + job.runSecs + job.suspendSecs) }

/-- The planned suspension by the system. -/
def inSuspension (now : ℚ) (job : Job) : Bool :=
  0 < job.suspendSecs && job.startTime.any fun start =>
    start + job.suspendAt ≤ now && now < start + job.suspendAt + job.suspendSecs

/-- The transition of an active job, if it has one now; a job suspended by its user has none. -/
def transition (now : ℚ) (job : Job) : Option Job :=
  if job.stat = .ususp then none
  else if job.finishTime.any (· ≤ now) then some (finish now job)
  else
    let stat := if inSuspension now job then .ssusp else .run
    if stat ≠ job.stat then some { job with stat } else none

/-- The pairs of the first write. -/
def transitions (now : ℚ) (active : List Job) : List (Job × Job) :=
  active.filterMap fun j => (transition now j).map fun j' => (j', j)

/-- The order of the dispatch: priority, then submission. -/
def pendOrder (pend : List Job) : List Job :=
  let prio (j : Job) : ℤ := (cl.queues.get? j.queue).getD 0
  pend.insertionSort fun a b =>
    prio b < prio a ∨ prio a = prio b ∧
      (a.submitTime < b.submitTime ∨ a.submitTime = b.submitTime ∧ a.rowId ≤ b.rowId)

/-- The pairs of the second write: `used` and `arrays` count what is active and what was given away
before, `dispatched` the jobs. -/
def dispatches (now : ℚ) : (Text → ℕ) → (ℕ → ℕ) → ℕ → List Job → List (Job × Job)
  | _, _, _, [] => []
  | used, arrays, dispatched, j :: pend =>
    if cl.maxDispatch ≤ dispatched then []
    else if now - j.submitTime < j.pendSecs then dispatches now used arrays dispatched pend
    else if 0 < j.arrayLimit ∧ j.arrayLimit ≤ arrays j.jobId then
      dispatches now used arrays dispatched pend
    else
      match pickHost cl j used with
      | none => dispatches now used arrays dispatched pend
      | some host =>
        (dispatch now host j, j) ::
          dispatches now (Function.update used host (used host + j.numCpus))
            (if j.arrayIndex.isSome then Function.update arrays j.jobId (arrays j.jobId + 1)
              else arrays)
            (dispatched + 1) pend

/-- The event of an applied pair in `_apply_transitions`. -/
def transitionEvent (now : ℚ) (pair : Job × Job) : Event :=
  let (j, prev) := pair
  let event (kind : EventKind) (detail : Text) : Event :=
    { jobId := j.jobId, arrayIndex := j.arrayIndex, ts := now, kind, detail }
  if prev.stat = .pend then event .dispatch (j.execHost.getD [])
  else if j.stat = .done ∨ j.stat = .exit then
    event (if j.stat = .done then .done else .exit)
      ("exit_code=".toList ++ (toString j.exitCode).toList)
  else event (if j.stat = .ssusp then .suspend else .resume) "system".toList

end

end Lsfmgr.Mock
