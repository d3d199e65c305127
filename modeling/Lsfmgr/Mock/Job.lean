import Mathlib
import Lsfmgr.Command.Chunk

/-!
# Mock/Job — a job of the mock cluster

One row of its database.  A time is a rational number of seconds since the epoch.
-/

namespace Lsfmgr.Mock

open Command (Text)

/-- The STAT column. -/
inductive Stat
  | pend
  | run
  | done
  | exit
  | psusp
  | ususp
  | ssusp
  deriving DecidableEq, Repr

namespace Stat

def name : Stat → Text
  | pend => "PEND".toList
  | run => "RUN".toList
  | done => "DONE".toList
  | exit => "EXIT".toList
  | psusp => "PSUSP".toList
  | ususp => "USUSP".toList
  | ssusp => "SSUSP".toList

/-- `FINISHED_STATES` -/
def isFinished : Stat → Bool
  | done | exit => true
  | _ => false

/-- `ACTIVE_STATES`: a suspended job keeps its slots. -/
def isActive : Stat → Bool
  | run | ssusp | ususp => true
  | _ => false

end Stat

structure Job where
  jobId : ℕ
  user : Text := []
  command : Text := []
  queue : Text := []
  fromHost : Text := []
  jobName : Text := []
  submitTime : ℚ := 0
  stat : Stat := .pend
  arrayIndex : Option ℕ := none
  /-- At most so many elements of the array run at a time, if it is positive. -/
  arrayLimit : ℕ := 0
  execHost : Option Text := none
  startTime : Option ℚ := none
  /-- The time a running job is planned to end, or a finished one has ended. -/
  finishTime : Option ℚ := none
  pendSecs : ℚ := 0
  runSecs : ℚ := 0
  plannedOutcome : Stat := .done
  exitCode : ℤ := 0
  suspendAt : ℚ := 0
  suspendSecs : ℚ := 0
  suspSince : ℚ := 0
  numCpus : ℕ := 1
  requestedHosts : Text := []
  proj : Text := "default".toList
  jobGroup : Text := []
  cwd : Text := []
  sourceCluster : Text := []
  forwardCluster : Text := []
  rowId : ℕ := 0
  deriving DecidableEq, Repr

/-- `if x:` of an optional number. -/
def truthy (x : Option ℚ) : Option ℚ := x.filter (· ≠ 0)

end Lsfmgr.Mock
