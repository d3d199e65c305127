import Mathlib
import Lsfmgr.Mock.Database

/-!
# Mock/Commands — what `bsub` inserts, and what `bkill`, `bstop` and `bresume` write to a row

A command changes its copy of a row it has read, and writes some columns of the copy if the state of
the row is then one of those allowed.
-/

namespace Lsfmgr.Mock

open Command (Text)

/-! ## `bsub` -/

/-- The options of a submission, checked, and what its environment adds to them. -/
structure Request where
  user : Text := []
  command : Text := []
  queue : Text := []
  fromHost : Text := []
  jobName : Text := []
  /-- The indices of the array; a job of its own has none. -/
  indices : List ℕ := []
  limit : ℕ := 0
  numCpus : ℕ := 1
  hosts : List Text := []
  proj : Text := "default".toList
  group : Text := []
  cwd : Text := []
  sourceCluster : Text := []
  forwardCluster : Text := []

/-- `_plan_timing` -/
structure Plan where
  pendSecs : ℚ := 0
  runSecs : ℚ := 0
  exits : Bool := false
  exitCode : ℤ := 0
  suspendAt : ℚ := 0
  suspendSecs : ℚ := 0

/-- `build_jobs`; the plan of each element is drawn for itself. -/
def buildJobs (jobId : ℕ) (req : Request) (plan : ℕ → Plan) (submitTime : ℚ) : List Job :=
  let mk (index : Option ℕ) (p : Plan) : Job :=
    { jobId, user := req.user, command := req.command, queue := req.queue, fromHost := req.fromHost
      jobName := if req.jobName = [] then req.command else req.jobName
      submitTime, arrayIndex := index, arrayLimit := req.limit, numCpus := req.numCpus
      requestedHosts := [' '].intercalate req.hosts, proj := req.proj, jobGroup := req.group
      cwd := req.cwd, sourceCluster := req.sourceCluster, forwardCluster := req.forwardCluster
      pendSecs := p.pendSecs, runSecs := p.runSecs
      plannedOutcome := if p.exits then .exit else .done
      exitCode := p.exitCode, suspendAt := p.suspendAt, suspendSecs := p.suspendSecs }
  if req.indices = [] then [mk none (plan 0)]
  else req.indices.zipIdx.map fun (index, i) => mk (some index) (plan i)

/-- What is logged of a submission. -/
def submitEvent (job : Job) : Event :=
  { jobId := job.jobId, arrayIndex := job.arrayIndex, ts := job.submitTime, kind := .submit
    detail := job.queue }

/-! ## `bkill`, `bstop` and `bresume` -/

/-- A call of `update_if_stat_in`, and the event that is logged if it is applied. -/
structure Write where
  job : Job
  allowed : List Stat
  columns : List Column
  event : Event

def userEvent (job : Job) (now : ℚ) (kind : EventKind) : Event :=
  { jobId := job.jobId, arrayIndex := job.arrayIndex, ts := now, kind, detail := "user".toList }

/-- `_kill_reachable`, in the cluster the command is run in. -/
def killReachable (cluster : Text) (job : Job) : Bool :=
  if job.sourceCluster = [] ∧ job.forwardCluster = [] then true
  else if job.forwardCluster ≠ [] then cluster = job.forwardCluster
  else cluster = job.sourceCluster

/-- One target of `cmd_bkill`. -/
def bkillWrite (cluster : Text) (now : ℚ) (job : Job) : Option Write :=
  if job.stat.isFinished ∨ killReachable cluster job = false then none
  else some
    { job := { job with stat := .exit, exitCode := 130, finishTime := some now }
      allowed := [.pend, .run, .ssusp, .ususp, .psusp]
      columns := [.stat, .exitCode, .finishTime]
      event := userEvent job now .kill }

/-- One target of `cmd_bstop`. -/
def bstopWrite (now : ℚ) (job : Job) : Option Write :=
  match job.stat with
  | .run | .ssusp => some
      { job := { job with stat := .ususp, suspSince := now }
        allowed := [.run, .ssusp]
        columns := [.stat, .suspSince]
        event := userEvent job now .suspend }
  | .pend => some
      { job := { job with stat := .psusp, suspSince := now }
        allowed := [.pend]
        columns := [.stat, .suspSince]
        event := userEvent job now .suspend }
  | _ => none

/-- The end of a job that is resumed: put off by the time it was suspended. -/
def resumedFinish (now : ℚ) (job : Job) : Option ℚ :=
  match truthy job.finishTime with
  | some finish => if job.suspSince ≠ 0 then some (finish + (now - job.suspSince))
      else job.finishTime
  | none => job.finishTime

/-- One target of `cmd_bresume`. -/
def bresumeWrite (now : ℚ) (job : Job) : Option Write :=
  match job.stat with
  | .ususp => some
      { job := { job with stat := .run, suspSince := 0, finishTime := resumedFinish now job }
        allowed := [.ususp]
        columns := [.stat, .suspSince, .finishTime]
        event := userEvent job now .resume }
  | .psusp => some
      { job := { job with
          stat := .pend, suspSince := 0
          pendSecs := if job.suspSince ≠ 0 then job.pendSecs + (now - job.suspSince)
            else job.pendSecs }
        allowed := [.psusp]
        columns := [.stat, .suspSince, .pendSecs]
        event := userEvent job now .resume }
  | _ => none

/-- A command with targets. -/
inductive Cmd
  | bkill (cluster : Text)
  | bstop
  | bresume
  | bmod (group : Text)
  deriving DecidableEq, Repr

/-- What a command writes for one target; `bmod` writes the group and is not guarded. -/
def Cmd.write (now : ℚ) (job : Job) : Cmd → Option Write
  | .bkill cluster => bkillWrite cluster now job
  | .bstop => bstopWrite now job
  | .bresume => bresumeWrite now job
  | .bmod _ => none

end Lsfmgr.Mock
