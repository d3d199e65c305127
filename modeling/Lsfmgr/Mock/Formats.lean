import Mathlib
import Lsfmgr.Command.Times
import Lsfmgr.Mock.Job

/-!
# Mock/Formats — the rows `bjobs -o` prints

A format names the columns and may carry the delimiter: `jobid stat delimiter=';'`.  What cannot be
printed, a number with more digits than `str` takes, is `none`.
-/

namespace Lsfmgr.Mock

open Machinery Command

/-! ## Values -/

section Values

variable (py : Python)

/-- `str` of an integer; `none` where it raises. -/
def strInt? (n : ℤ) : Option Text :=
  if n < 0 then (py.str? n.natAbs).map ('-' :: ·) else py.str? n.natAbs

/-- `display_id` -/
def displayId (job : Job) : Option Text :=
  match job.arrayIndex with
  | none => py.str? job.jobId
  | some i =>
    (py.str? job.jobId).bind fun id => (py.str? i).map fun index => id ++ '[' :: (index ++ [']'])

/-- `exec_host_str` -/
def execHostStr (job : Job) : Option Text :=
  match job.execHost with
  | none => some []
  | some host =>
    if host = [] ∨ job.stat = .pend then some []
    else if 1 < job.numCpus then (py.str? job.numCpus).map fun n => n ++ '*' :: host
    else some host

/-- The local second of an epoch time, in microseconds; `tm_gmtoff` is in seconds. -/
def localSecond (epoch : ℚ) : ℤ :=
  (⌊epoch⌋ + py.utcOffset (⌊epoch⌋ * 1000000) / 1000000) * 1000000

/-- `time.localtime`, within the years of a `datetime`. -/
def localtime (epoch : ℚ) : TimeFields := fieldsOf (localSecond py epoch)

/-- `fmt_submit_time`, `%b %e %H:%M` -/
def fmtSubmitTime (epoch : ℚ) : Text :=
  let t := localtime py epoch
  monthAbbr t.month ++
    ' ' :: (pad2 ' ' t.day ++ ' ' :: (pad2 '0' t.hour ++ ':' :: pad2 '0' t.minute))

/-- `_fmt_o_time`, `%b %e %H:%M:%S` -/
def fmtOTime (epoch : ℚ) : Text := render ' ' (localtime py epoch)

def orDash (text : Text) : Text := if text = [] then ['-'] else text

/-- The end `run_time` counts to; `time` is the clock of the mock. -/
def runEnd (time : ℚ) (job : Job) : ℚ :=
  if job.stat.isFinished then (truthy job.finishTime).getD time else time

/-- `max(0, int(end - start))` -/
def elapsed (time : ℚ) (job : Job) (start : ℚ) : ℕ := ⌊runEnd time job - start⌋.toNat

/-- `_field_value` -/
def fieldValue (time : ℚ) (job : Job) (name : Text) : Option Text :=
  let name := py.lower name
  let is (names : List String) : Prop := name ∈ names.map String.toList
  if is ["jobid", "id"] then displayId py job
  else if is ["jobindex"] then py.str? (job.arrayIndex.getD 0)
  else if is ["stat"] then some job.stat.name
  else if is ["queue"] then some job.queue
  else if is ["user"] then some job.user
  else if is ["job_name", "name"] then some job.jobName
  else if is ["job_description"] then some []
  else if is ["from_host"] then some job.fromHost
  else if is ["exec_host"] then (execHostStr py job).map orDash
  else if is ["command"] then some job.command
  else if is ["submit_time"] then some (fmtSubmitTime py job.submitTime)
  else if is ["start_time"] then
    some (match truthy job.startTime with
      | some t => fmtOTime py t
      | none => ['-'])
  else if is ["finish_time"] then
    -- a running job has its planned end there, which is not shown
    some (match (if job.stat.isFinished then truthy job.finishTime else none) with
      | some t => fmtOTime py t
      | none => ['-'])
  else if is ["run_time"] then
    match truthy job.startTime with
    | some start => (py.str? (elapsed time job start)).map (· ++ " second(s)".toList)
    | none => some ['-']
  else if is ["exec_cwd", "sub_cwd"] then some (orDash job.cwd)
  else if is ["exit_code"] then
    -- the planned exit code is not shown before the end
    if job.stat.isFinished then strInt? py job.exitCode else some ['-']
  else if is ["nreq_slot", "slots", "nalloc_slot", "min_req_proc"] then py.str? job.numCpus
  else if is ["proj_name"] then some job.proj
  else if is ["source_cluster"] then some (orDash job.sourceCluster)
  else if is ["forward_cluster"] then some (orDash job.forwardCluster)
  else some ['-']

end Values

/-! ## Formats -/

section Spec

variable (isSpace : Char → Bool)

/-- `str.split` at blanks -/
def words (l : Text) : List Text := (l.splitOnP isSpace).filter (· ≠ [])

/-- The value of a delimiter: in quotes, or up to the next blank; and what follows. -/
def delimiterValue (l : Text) : Option (Text × Text) :=
  let bare :=
    match l.takeWhile fun c => !isSpace c with
    | [] => none
    | c :: v => some (c :: v, l.dropWhile fun c => !isSpace c)
  let quoted (q : Char) (l : Text) :=
    match l.dropWhile (· ≠ q) with
    | [] => bare
    | _ :: rest => some (l.takeWhile (· ≠ q), rest)
  match l with
  | '\'' :: l => quoted '\'' l
  | '"' :: l => quoted '"' l
  | _ => bare

/-- One match of `_DELIM_RE` at the beginning of a text: the value and the rest. -/
def matchDelimiter (l : Text) : Option (Text × Text) :=
  let l := match l with
    | '-' :: l => l
    | l => l
  let key := "delimiter=".toList
  if (l.take key.length).map Char.toLower = key then delimiterValue isSpace (l.drop key.length)
  else none

/-- `_DELIM_RE.search`: what is before the match, the value, and what is after it.  A match begins
at the beginning of a token; `free` says that this is one. -/
def searchDelimiter : Bool → Text → Option (Text × Text × Text)
  | free, l =>
    match (if free then matchDelimiter isSpace l else none) with
    | some (v, rest) => some ([], v, rest)
    | none =>
      match l with
      | [] => none
      | c :: l =>
        (searchDelimiter (isSpace c) l).map fun (before, v, rest) => (c :: before, v, rest)
termination_by structural _ l => l

/-- `_extract_delimiter` -/
def extractDelimiter (spec : Text) : Text × Option Text :=
  match searchDelimiter isSpace true spec with
  | none => (spec, none)
  | some (before, v, rest) =>
    ([' '].intercalate (words isSpace (before ++ ' ' :: rest)), some v)

end Spec

section Format

variable (py : Python)

/-- `_parse_o_spec`: the columns, with their widths where there are any. -/
def parseOSpec (spec : Text) : List (Text × Option ℤ) :=
  (words py.isSpace spec).map fun tok =>
    if ':' ∈ tok then ((partition ':' tok).1, py.int? (partition ':' tok).2.2) else (tok, none)

/-- `v[:w]` -/
def sliceTo (v : Text) (w : ℤ) : Text :=
  if 0 ≤ w then v.take w.toNat else v.take (v.length - w.natAbs)

/-- `v.ljust(w)` -/
def ljust (v : Text) (w : ℤ) : Text := v ++ List.replicate (w.toNat - v.length) ' '

/-- One line without a delimiter: the values cut and padded to their widths, but for the last
one. -/
def fmtLine (widths : List ℤ) (vals : List Text) : Text :=
  let parts := (widths.zip vals).zipIdx.map fun ((w, v), i) =>
    let v := if w < v.length then sliceTo v w else v
    if i = vals.length - 1 then v else ljust v w
  ([' '].intercalate parts).rdropWhile py.isSpace

/-- The lines of a table, given by its cells. -/
def tableLines (cols : List (Text × Option ℤ)) (rows : List (List Text)) (noheader : Bool) :
    Option Text → List Text
  | some d => (if noheader then [] else [d.intercalate (cols.map fun c => py.upper c.1)]) ++
      rows.map d.intercalate
  | none =>
    let header := cols.map fun c => py.upper c.1
    let widths := cols.zipIdx.map fun ((_, w), i) => w.getD
      (((header :: rows).map fun r => (r.getD i []).length).foldl max 0 : ℕ)
    (if noheader then [] else [fmtLine py widths header]) ++ rows.map (fmtLine py widths)

/-- `custom_format`; a delimiter in the format goes before the argument. -/
def customFormat (time : ℚ) (jobs : List Job) (spec : Text) (noheader : Bool)
    (delimiter : Option Text) : Option Text :=
  let (spec, embedded) := extractDelimiter py.isSpace spec
  let cols := parseOSpec py spec
  (jobs.mapM fun job => cols.mapM fun c => fieldValue py time job c.1).map fun rows =>
    ['\n'].intercalate (tableLines py cols rows noheader (embedded.or delimiter))

end Format

end Lsfmgr.Mock
