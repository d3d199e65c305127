import Mathlib
import Lsfmgr.Mock.Job

/-!
# Mock/Database — the table of jobs that all processes share

Every write is one transaction: `update_guarded_many` compares the columns of the row that was read,
`update_if_stat_in` the state only, and each of them says what it has applied.  An applied write is
kept with the row before it and after it (`Applied`), which no process reads.
-/

namespace Lsfmgr.Mock

open Command (Text)

/-! ## Columns -/

/-- The columns an update writes or compares. -/
inductive Column
  | stat
  | execHost
  | startTime
  | finishTime
  | exitCode
  | pendSecs
  | suspSince
  deriving DecidableEq, Repr

namespace Column

/-- `c=?` -/
def assign (job row : Job) : Column → Job
  | stat => { row with stat := job.stat }
  | execHost => { row with execHost := job.execHost }
  | startTime => { row with startTime := job.startTime }
  | finishTime => { row with finishTime := job.finishTime }
  | exitCode => { row with exitCode := job.exitCode }
  | pendSecs => { row with pendSecs := job.pendSecs }
  | suspSince => { row with suspSince := job.suspSince }

/-- `c IS ?` -/
def same (prev row : Job) : Column → Bool
  | stat => row.stat = prev.stat
  | execHost => row.execHost = prev.execHost
  | startTime => row.startTime = prev.startTime
  | finishTime => row.finishTime = prev.finishTime
  | exitCode => row.exitCode = prev.exitCode
  | pendSecs => row.pendSecs = prev.pendSecs
  | suspSince => row.suspSince = prev.suspSince

end Column

/-- The row with the columns taken from `job`. -/
def assignAll (columns : List Column) (job row : Job) : Job :=
  columns.foldl (fun row c => c.assign job row) row

/-! ## Events -/

inductive EventKind
  | submit
  | dispatch
  | done
  | exit
  | suspend
  | resume
  | kill
  deriving DecidableEq, Repr

structure Event where
  jobId : ℕ
  arrayIndex : Option ℕ
  ts : ℚ
  kind : EventKind
  detail : Text
  deriving DecidableEq, Repr

/-- A write that was applied to a row, and the event that is logged for it. -/
structure Applied where
  before : Job
  after : Job
  event : Event
  deriving DecidableEq, Repr

/-! ## The database -/

structure Database where
  rows : List Job := []
  /-- The next `row_id`; `AUTOINCREMENT` uses none twice. -/
  nextRow : ℕ := 1
  /-- The last job id that was given out. -/
  counter : ℕ
  events : List Event := []
  deriving DecidableEq, Repr

namespace Database

variable (db : Database)

def nextJobId : ℕ × Database := (db.counter + 1, { db with counter := db.counter + 1 })

/-- `insert_jobs` -/
def insertJobs (jobs : List Job) : Database :=
  { db with
    rows := db.rows ++ jobs.zipIdx.map fun (job, i) => { job with rowId := db.nextRow + i }
    nextRow := db.nextRow + jobs.length }

def logEvent (event : Event) : Database := { db with events := db.events ++ [event] }

/-- `ORDER BY submit_time, row_id` -/
def jobsInStates (states : List Stat) : List Job :=
  (db.rows.filter (·.stat ∈ states)).insertionSort fun a b =>
    a.submitTime < b.submitTime ∨ a.submitTime = b.submitTime ∧ a.rowId ≤ b.rowId

/-- `UPDATE jobs SET … WHERE row_id=? AND …`, and the row it has changed. -/
def update (rowId : ℕ) (guard : Job → Bool) (columns : List Column) (job : Job) :
    Database × Option Job :=
  let chosen (row : Job) : Bool := row.rowId = rowId && guard row
  ({ db with rows := db.rows.map fun row => if chosen row then assignAll columns job row else row },
    db.rows.find? chosen)

/-- `update_job_group` -/
def updateJobGroup (rowId : ℕ) (group : Text) : Database :=
  { db with rows := db.rows.map fun row => if row.rowId = rowId then { row with jobGroup := group }
    else row }

/-- `columns` of `update_guarded_many` -/
def writtenColumns : List Column := [.stat, .execHost, .startTime, .finishTime, .exitCode]

/-- `checked` -/
def checkedColumns : List Column := writtenColumns ++ [.pendSecs, .suspSince]

/-- `update_guarded_many`; the event of a pair is what the caller logs once it is applied. -/
def updateGuardedMany (event : Job × Job → Event) : Database → List (Job × Job) →
    Database × List Applied
  | db, [] => (db, [])
  | db, (job, prev) :: pairs =>
    let (db', before) := db.update prev.rowId (fun row => checkedColumns.all (Column.same prev row))
      writtenColumns job
    let (db'', applied) := updateGuardedMany event db' pairs
    (db'', (before.map fun row =>
      { before := row, after := assignAll writtenColumns job row,
        event := event (job, prev) }).toList
        ++ applied)

/-- `update_if_stat_in` -/
def updateIfStatIn (job : Job) (allowed : List Stat) (columns : List Column) (event : Event) :
    Database × Option Applied :=
  let (db', before) := db.update job.rowId (·.stat ∈ allowed) columns job
  (db', before.map fun row => { before := row, after := assignAll columns job row, event })

end Database

/-! ## What no update writes -/

/-- A job without the columns that are ever written to its row again. -/
def Job.fixed (job : Job) : Job :=
  { job with
    stat := .pend, execHost := none, startTime := none, finishTime := none, exitCode := 0
    pendSecs := 0, suspSince := 0, jobGroup := [] }

theorem rowId_of_fixed {a b : Job} (h : a.fixed = b.fixed) : a.rowId = b.rowId :=
  congrArg (·.rowId) h

theorem fixed_assignAll (columns : List Column) (job row : Job) :
    (assignAll columns job row).fixed = row.fixed := by
  rw [assignAll]
  induction columns generalizing row with
  | nil => rfl
  | cons c columns ih =>
    rw [List.foldl_cons, ih]
    cases c <;> rfl

/-- No two rows have one `row_id`, and none has one that is still to be given out. -/
structure Database.Keyed (db : Database) : Prop where
  nodup : (db.rows.map (·.rowId)).Nodup
  lt : ∀ row ∈ db.rows, row.rowId < db.nextRow

/-- The rows with one of them replaced. -/
def replaceRow (rows : List Job) (after : Job) : List Job :=
  rows.map fun row => if row.rowId = after.rowId then after else row

section Update

variable {db : Database}

/-- **Rows with one id are one row.** -/
theorem Database.Keyed.eq (h : db.Keyed) {a b : Job} (ha : a ∈ db.rows) (hb : b ∈ db.rows)
    (heq : a.rowId = b.rowId) : a = b :=
  List.inj_on_of_nodup_map h.nodup ha hb heq

/-- **An update replaces the row it has found**, or does nothing. -/
theorem Database.update_cases (h : db.Keyed) (rowId : ℕ) (guard : Job → Bool)
    (columns : List Column) (job : Job) :
    (db.update rowId guard columns job = (db, none)) ∨
      ∃ row ∈ db.rows, row.rowId = rowId ∧ guard row = true ∧
        db.update rowId guard columns job
          = ({ db with rows := replaceRow db.rows (assignAll columns job row) }, some row) := by
  rcases hfind : db.rows.find? (fun row => row.rowId = rowId && guard row) with _ | row
  · refine .inl ?_
    have hnone := List.find?_eq_none.mp hfind
    have hrows : (db.rows.map fun row =>
        if (decide (row.rowId = rowId) && guard row) = true then assignAll columns job row else row)
          = db.rows :=
      (List.map_congr_left fun row hrow => if_neg (hnone row hrow)).trans (List.map_id' _)
    simp only [Database.update, hfind, hrows]
  · refine .inr ?_
    have hmem := List.mem_of_find?_eq_some hfind
    have hchosen := List.find?_some hfind
    simp only [Bool.and_eq_true, decide_eq_true_eq] at hchosen
    refine ⟨row, hmem, hchosen.1, hchosen.2, ?_⟩
    have hid : (assignAll columns job row).rowId = rowId :=
      (rowId_of_fixed (fixed_assignAll columns job row)).trans hchosen.1
    have hrows : (db.rows.map fun row =>
        if (decide (row.rowId = rowId) && guard row) = true then assignAll columns job row else row)
          = replaceRow db.rows (assignAll columns job row) := by
      refine List.map_congr_left fun row' hrow' => ?_
      rw [hid]
      by_cases heq : row'.rowId = rowId
      · obtain rfl := h.eq hrow' hmem (heq.trans hchosen.1.symm)
        rw [if_pos heq, if_pos (by simp [heq, hchosen.2])]
      · rw [if_neg heq, if_neg (by simp [heq])]
    simp only [Database.update, hfind, hrows]

end Update

end Lsfmgr.Mock
