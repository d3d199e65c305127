import Mathlib
import Lsfmgr.Machinery.Transition
import Lsfmgr.Monitor.Merge
import Lsfmgr.Submit.System

/-!
# Monitor/Querier — the query cycle of one jobset

A query cycle takes the records that are on LSF, asks the status source for their ids, and writes
what it found with compare-and-set transitions.  A record the source has no row for is *missing*; it
is declared `LOST` when it was missing in enough cycles in a row.  The count is kept per key, with
the generation it belongs to, in the table `streaks`.

The cycles of a jobset are serialized by a lock, so at most one is under way.  Its sections, and
everything else the library does to the jobset, are the steps of `system`.
-/

namespace Lsfmgr.Monitor

open Machinery Submit

/-- The parts of the configuration a query cycle reads. -/
structure Config where
  lostAfterMissingPolls : ℤ
  /-- A `job_status_fetcher` is configured. -/
  internalStatus : Bool
  internalLostGraceS : Time
  pollRuntimeUpdates : Bool
  collectClusters : Bool

namespace Config

/-- The number of absences in a row that make a job lost. -/
def grace (cfg : Config) : ℕ := (max 1 cfg.lostAfterMissingPolls).toNat

/-- `_submit_grace_s`: only a callback source lags behind the submission. -/
def submitGraceS (cfg : Config) : Time :=
  if cfg.internalStatus then max 0 cfg.internalLostGraceS else 0

theorem one_le_grace (cfg : Config) : 1 ≤ cfg.grace := by
  have : (1 : ℤ) ≤ max 1 cfg.lostAfterMissingPolls := le_max_left _ _
  rw [grace]
  omega

end Config

/-- `_within_submit_grace`: a record without any time is of unknown age, and not spared. -/
def withinSubmitGrace (rec : JobRecord) (now graceS : Time) : Bool :=
  if graceS ≤ 0 then false
  else
    match rec.submitTime.or rec.updatedAt with
    | none => false
    | some marker => now - marker < graceS

/-- What one cycle has asked and been answered: the polled records, the rows, the ids whose query
failed, and the clock when the missing ones are judged. -/
structure View where
  targets : List JobRecord := []
  rows : List JobStatus := []
  failed : Finset ℕ := ∅
  now : Time := 0

/-- `_missing_streak[jobset_id]`: the generation and the absences counted so far. -/
abbrev Streaks := Dict Key (ℕ × ℕ)

section Cycle

variable (cfg : Config) (v : View)

/-- The records no row was found for. -/
def View.missing : List JobRecord :=
  v.targets.filter fun rec => (lookup (rowTable v.rows) rec).isNone

/-- The absences of a missing record, this one included; `none` where the judgement is put off: the
record has no id, its query failed, or it is within the submit grace. -/
def absences (prev : Streaks) (rec : JobRecord) : Option ℕ :=
  if rec.jobId.all (· ∈ v.failed) then none
  else if withinSubmitGrace rec v.now cfg.submitGraceS then none
  else
    let (generation, count) := match prev.get? rec.jobKey with
      | some (g, n) => (some g, n)
      | none => (none, 0)
    some (if generation = some rec.generation then count + 1 else 1)

/-- The missing records that count as absent, each with its absences so far. -/
def judged (prev : Streaks) : List (JobRecord × ℕ) :=
  v.missing.filterMap fun rec => (absences cfg v prev rec).map fun n => (rec, n)

/-- `_judge_missing`: the new table… -/
def newStreaks (prev : Streaks) : Streaks :=
  (judged cfg v prev).foldl (fun d e => d.set e.1.jobKey (e.1.generation, e.2)) ∅

/-- …and the records that are lost. -/
def lostRecords (prev : Streaks) : List JobRecord :=
  ((judged cfg v prev).filter fun e => cfg.grace ≤ e.2).map Prod.fst

/-- The writes of the observations. -/
def updateSpecs : List TransitionSpec :=
  v.targets.filterMap fun rec => (lookup (rowTable v.rows) rec).bind fun st =>
    (mergeFields rec st cfg.pollRuntimeUpdates cfg.collectClusters).map fun fields =>
      ⟨rec.jobKey, some st.state, Guard.of (unchanged rec), fields⟩

/-- The writes of the losses. -/
def lostSpecs (lost : List JobRecord) : List TransitionSpec :=
  lost.map fun rec =>
    ⟨rec.jobKey, some .lost, Guard.of (unchanged rec), [.failReason (some "NOT_FOUND_IN_LSF")]⟩

end Cycle

/-- An entry that still belongs to the record, which is still on LSF. -/
def isCurrent (store : InMemoryStore) (js : String) (k : Key) (entry : ℕ × ℕ) : Bool :=
  match store.job? js k with
  | some r => r.generation = entry.1 && r.state.isOnLsf
  | none => false

/-- `_current_streaks` -/
def currentStreaks (store : InMemoryStore) (js : String) (streaks : Streaks) : Streaks :=
  streaks.filter (isCurrent store js)

/-- `forget`: of the given keys the entries that are not current, of no given keys every entry. -/
def forget (store : InMemoryStore) (js : String) (streaks : Streaks) :
    Option (List Key) → Streaks
  | none => ∅
  | some keys => streaks.filter fun k entry => k ∉ keys || isCurrent store js k entry

/-- Where the query cycle under way stands. -/
inductive Phase
  | idle
  /-- The source is being asked. -/
  | asking (targets : List JobRecord)
  | answered (targets : List JobRecord) (rows : List JobStatus) (failed : Finset ℕ)
  /-- The table has been taken out. -/
  | judging (v : View) (prev : Streaks)
  | updating (v : View) (lost : List JobRecord)
  | losing (v : View) (lost : List JobRecord)

/-- The jobset with its submissions, and its querier. -/
structure State where
  base : Submit.State
  streaks : Streaks := ∅
  phase : Phase := .idle
  /-- The completed cycles, the latest first; no step reads it. -/
  history : List View := []

inductive Act
  /-- Anything the library does apart from the query cycle. -/
  | lib (a : Submit.Act)
  | start
  /-- The source answers… -/
  | answer (rows : List JobStatus) (failed : Finset ℕ)
  /-- …or raises. -/
  | raise
  | pop (now : Time)
  | judge
  | writeUpdates (now : Time)
  | writeLost (now : Time)
  | forget (keys : Option (List Key))

/-- A step of the query cycle. -/
def Act.isQuery : Act → Bool
  | lib _ | forget _ => false
  | _ => true

/-- The writes of the query cycle, which the rest of the library does not make. -/
def ofQuerier : Submit.Act → Bool
  | .poll .. | .pollLost .. => true
  | _ => false

namespace State

def store (s : State) : InMemoryStore := s.base.shared.store

/-- Put the store after a batch in place. -/
def setStore (s : State) (store : InMemoryStore) : State :=
  { s with base := { s.base with shared := { s.base.shared with store } } }

def step (P : Params) (cfg : Config) (s : State) : Act → Option State
  | .lib a =>
    if ofQuerier a then none else (s.base.step P a).map fun base => { s with base }
  | .start =>
    match s.phase, s.store.getJobs P.jobsetId (some JobState.isOnLsf) with
    -- nothing on LSF: the cycle is complete, and has not looked at the table
    | .idle, .ok [] => some { s with history := {} :: s.history }
    | .idle, .ok targets => some { s with phase := .asking targets }
    | _, _ => none
  | .answer rows failed =>
    match s.phase with
    | .asking targets =>
      if (∀ st ∈ rows, st.state.isReported) ∧
          ((∀ rec ∈ targets, rec.jobId = none) → rows = [] ∧ failed = ∅) then
        some { s with phase := .answered targets rows failed }
      else none
    | _ => none
  | .raise =>
    match s.phase with
    | .asking _ => some { s with phase := .idle }
    | _ => none
  | .pop now =>
    match s.phase with
    | .answered targets rows failed =>
      some { s with streaks := ∅, phase := .judging ⟨targets, rows, failed, now⟩ s.streaks }
    | _ => none
  | .judge =>
    match s.phase with
    | .judging v prev => some { s with
        streaks := currentStreaks s.store P.jobsetId (newStreaks cfg v prev)
        phase := .updating v (lostRecords cfg v prev) }
    | _ => none
  | .writeUpdates now =>
    match s.phase with
    | .updating v lost => some ({ s with phase := .losing v lost }.setStore
        (s.store.transitionMany now P.jobsetId (updateSpecs cfg v)).2)
    | _ => none
  | .writeLost now =>
    match s.phase with
    | .losing v lost => some ({ s with phase := .idle, history := v :: s.history }.setStore
        (s.store.transitionMany now P.jobsetId (lostSpecs lost)).2)
    | _ => none
  | .forget none =>
    -- every record has been deleted before, in the same event of the main thread
    if s.store.getJobs P.jobsetId = .ok [] ∨ P.jobsetId ∉ s.store.jobsets.keys then
      some { s with streaks := Monitor.forget s.store P.jobsetId s.streaks none }
    else none
  | .forget (some keys) =>
    some { s with streaks := Monitor.forget s.store P.jobsetId s.streaks (some keys) }

end State

/-- The submission system of one jobset with its querier. -/
def system (P : Params) (cfg : Config) : System State Act where
  init s := (Submit.system P).init s.base ∧ s.streaks = ∅ ∧ s.phase = .idle ∧ s.history = []
  step := State.step P cfg

/-! ## What a cycle says of a record -/

/-- **The cycle found the record absent**: it was polled with this generation and with a job id
whose query did not fail, no row is about it, and it is outside the submit grace. -/
def Absent (cfg : Config) (k : Key) (g : ℕ) (v : View) : Prop :=
  ∃ rec ∈ v.targets, rec.jobKey = k ∧ rec.generation = g ∧
    (∃ id, rec.jobId = some id ∧ id ∉ v.failed) ∧ (∀ st ∈ v.rows, ¬st.Matches rec) ∧
    withinSubmitGrace rec v.now cfg.submitGraceS = false

end Lsfmgr.Monitor
