import Mathlib

/-!
# Store/States — job states, observations and records

The state of a job is either internal to the library or native to LSF; the four predicates below
classify it for every other component.  A `JobRecord` is what the library knows of one job, a
`JobStatus` is one observation of it.

Times are integers (microseconds), as only their order and difference are read.  `generation` is the
identity of one execution: the source draws a fresh UUID, here it is a number that its writer takes
from a counter.
-/

namespace Lsfmgr

/-- Microseconds since some fixed origin. -/
abbrev Time := ℤ

inductive JobState
  -- internal: not on LSF yet, or not traceable there
  | created
  | submitting
  | retryWait
  | submitFailed
  | cancelled
  | lost
  -- native to LSF
  | pend
  | run
  | done
  | exit
  | psusp
  | ususp
  | ssusp
  | unkwn
  | zombi
  deriving DecidableEq, Repr

namespace JobState

/-- Final: no further transition is expected. -/
def isTerminal : JobState → Bool
  | done | exit | submitFailed | lost | cancelled => true
  | _ => false

/-- Present on LSF, hence a target of the status query. -/
def isOnLsf : JobState → Bool
  | pend | run | psusp | ususp | ssusp | unkwn | zombi => true
  | _ => false

/-- A state a status source can report: the values of `LSF_STAT_MAP`. -/
def isReported : JobState → Bool
  | done | exit => true
  | s => s.isOnLsf

/-- Never submitted or final — what the submit, edit and remove guards ask for. -/
def isInactive (s : JobState) : Bool := s = created || s.isTerminal

theorem not_isTerminal_of_isOnLsf {s : JobState} (h : s.isOnLsf = true) :
    s.isTerminal = false := by
  cases s <;> simp_all [isOnLsf, isTerminal]

theorem isReported_of_isOnLsf {s : JobState} (h : s.isOnLsf = true) : s.isReported = true := by
  cases s <;> simp_all [isOnLsf, isReported]

end JobState

/-- `LSF_STAT_MAP` -/
def lsfStatMap : List (List Char × JobState) :=
  [("PEND", JobState.pend), ("RUN", .run), ("PSUSP", .psusp), ("USUSP", .ususp), ("SSUSP", .ssusp),
    ("UNKWN", .unkwn), ("ZOMBI", .zombi), ("DONE", .done), ("EXIT", .exit)].map
      fun e => (e.1.toList, e.2)

/-- One observation of a job: a parsed `bjobs` row or a parsed callback row. -/
structure JobStatus where
  jobId : ℕ
  arrayIndex : Option ℕ
  state : JobState
  exitCode : Option ℤ
  runTimeS : Option ℤ := none
  startTime : Option Time := none
  finishTime : Option Time := none
  sourceCluster : Option String := none
  forwardCluster : Option String := none
  deriving DecidableEq, Repr

/-- The tracked record of one job; `jobKey` is unique within the jobset. -/
structure JobRecord where
  jobId : Option ℕ := none
  arrayIndex : Option ℕ := none
  jobsetId : String
  jobKey : String
  state : JobState := .created
  failReason : Option String := none
  failMessage : Option String := none
  retryCount : ℕ := 0
  exitCode : Option ℤ := none
  killed : Bool := false
  submitTime : Option Time := none
  command : String := ""
  updatedAt : Option Time := none
  runTimeS : Option ℤ := none
  startTime : Option Time := none
  finishTime : Option Time := none
  sourceCluster : Option String := none
  forwardCluster : Option String := none
  submitCwd : Option String := none
  userData : Option String := none
  /-- Changes with every replacement and every new submission, never with a transition. -/
  generation : ℕ
  /-- Raised by the store with every write to the key. -/
  revision : ℕ := 0
  deriving DecidableEq, Repr

/-- The same run of the same job; state and revision may differ. -/
def JobRecord.sameExecution (r other : JobRecord) : Bool :=
  r.jobsetId = other.jobsetId && r.jobKey = other.jobKey && r.generation = other.generation

theorem JobRecord.sameExecution_iff {r other : JobRecord} :
    r.sameExecution other = true ↔ r.jobsetId = other.jobsetId ∧ r.jobKey = other.jobKey ∧
      r.generation = other.generation := by
  simp [sameExecution, and_assoc]

structure JobSetRecord where
  jobsetId : String
  intendedCount : ℤ
  label : String := ""
  tags : List String := []
  createdAt : Option Time := none
  deriving DecidableEq, Repr

end Lsfmgr
