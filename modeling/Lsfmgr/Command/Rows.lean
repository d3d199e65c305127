import Mathlib
import Lsfmgr.Command.Chunk
import Lsfmgr.Machinery.Text
import Lsfmgr.Store.States

/-!
# Command/Rows — `_parse_bjobs`, the rows of `bjobs -noheader -o`

A line that is not a row of the format is dropped by itself.  How a time is read is the parameter
`parseTime` (`_parse_lsf_time` at the moment of the response).

Four conversions are not guarded: a job id, an index and a run time with more digits than `int`
takes, and a time that `parseTime` raises for, make the whole response raise.
-/

namespace Lsfmgr.Command

open Machinery

/-- A text that may raise when its digits are converted. -/
abbrev Reading (α : Type) := Except PyError α

section

variable (py : Python)

/-- `_ARRAY_ID_RE.match`: the digits of the id and those of the index. -/
def matchArrayId (text : Text) : Option (List ℕ × Option (List ℕ)) :=
  let (digits, rest) := py.spanDigits text
  if digits = [] then none
  else if atEnd rest then some (digits, none)
  else
    match rest with
    | '[' :: rest =>
      match py.spanDigits rest with
      | (i :: index, ']' :: rest) => if atEnd rest then some (digits, some (i :: index)) else none
      | _ => none
    | _ => none

/-- `_clean_field` -/
def cleanField (s : Text) : Option String :=
  let s := py.strip s
  if s ≠ [] ∧ s ≠ ['-'] then some (String.ofList s) else none

/-- `_RUN_TIME_RE.search`: the first run of digits. -/
def searchDigits : Text → Option (List ℕ)
  | [] => none
  | c :: l =>
    match py.spanDigits (c :: l) with
    | ([], _) => searchDigits l
    | (digits, _) => some digits

/-- `_parse_run_time` -/
def parseRunTime (s : Text) : Reading (Option ℤ) :=
  let s := py.strip s
  if s = [] ∨ s = ['-'] then .ok none
  else
    match searchDigits py s with
    | none => .ok none
    | some digits => (py.readNumber digits).map fun n => some (n : ℤ)

/-- The state of a row; one LSF does not name is `UNKWN`. -/
def rowState (text : Text) : JobState := ((lsfStatMap.lookup text).getD .unkwn)

/-- The exit code of a row. -/
def rowExitCode (text : Text) : Option ℤ :=
  if text ∈ [[], ['-']] then none else py.int? text

variable (parseTime : Text → Reading (Option Time))

/-- The fields of a row beyond the first three. -/
structure RowExtras where
  runTimeS : Option ℤ := none
  startTime : Option Time := none
  finishTime : Option Time := none
  sourceCluster : Option String := none
  forwardCluster : Option String := none

/-- The three times of a row; while a job runs its finish time may be an estimate, and is not
read. -/
def rowTimes (state : JobState) (runTime start finish : Text) : Reading RowExtras := do
  let runTimeS ← parseRunTime py runTime
  let startTime ← parseTime start
  let finishTime ← if state = .done ∨ state = .exit then parseTime finish else .ok none
  .ok { runTimeS, startTime, finishTime }

/-- They are taken only if the number of the fields is that of a format. -/
def rowExtras (state : JobState) (parts : List Text) : Reading RowExtras :=
  match parts with
  | [_, _, _, runTime, start, finish] => rowTimes py parseTime state runTime start finish
  | [_, _, _, runTime, start, finish, source, forward] =>
    (rowTimes py parseTime state runTime start finish).map fun extras =>
      { extras with
        sourceCluster := cleanField py source, forwardCluster := cleanField py forward }
  | _ => .ok {}

/-- One line of the output: a row, or nothing. -/
def parseRow (line : Text) : Reading (Option JobStatus) :=
  let line := py.strip line
  if line = [] then .ok none
  else
    let parts := (line.splitOn ';').map py.strip
    match parts with
    | jobId :: stat :: exitCode :: _ =>
      match matchArrayId py jobId with
      | none => .ok none
      | some (digits, index) => do
        let extras ← rowExtras py parseTime (rowState stat) parts
        let jobId ← py.readNumber digits
        let arrayIndex ← match index with
          | none => .ok none
          | some index => (py.readNumber index).map some
        .ok (some
          { jobId, arrayIndex, state := rowState stat, exitCode := rowExitCode py exitCode
            runTimeS := extras.runTimeS, startTime := extras.startTime
            finishTime := extras.finishTime, sourceCluster := extras.sourceCluster
            forwardCluster := extras.forwardCluster })
    | _ => .ok none

/-- The rows of the lines, in order. -/
def parseLines : List Text → Reading (List JobStatus)
  | [] => .ok []
  | line :: lines => do
    let row ← parseRow py parseTime line
    let rows ← parseLines lines
    .ok (row.toList ++ rows)

/-- `_parse_bjobs` -/
def parseBjobs (stdout : Text) : Reading (List JobStatus) :=
  parseLines py parseTime (splitlines stdout)

end

end Lsfmgr.Command
