import Mathlib
import Lsfmgr.Command.Argv
import Lsfmgr.Command.Rows
import Lsfmgr.Machinery.Pool
import Lsfmgr.Machinery.Transition

/-!
# Command/Query — calls of `bjobs_by_ids` by several threads, and the format they share

A call asks for its ids chunk by chunk.  For each chunk `_bjobs` reads the index of the format the
threads share, runs `bjobs` with that format, and on an error that looks like an unknown field moves
the index one on, unless another thread has done so, and tries again.

Everything a thread does between two reads or writes of the index, or of the flag that the source is
shut down, is one step, and the steps of the threads interleave in any order.  What the runner
answers is arbitrary.
-/

namespace Lsfmgr.Command

open Machinery

/-- `LsfCommandError` -/
structure CommandError where
  message : Text
  returncode : Option ℤ := none
  stderr : Text := []

/-- What a runner returns or raises. -/
inductive RunnerAnswer
  | result (returncode : ℤ) (stdout stderr : Text)
  /-- `TimeoutExpired` -/
  | timeout
  | commandError (e : CommandError)
  /-- Any other exception. -/
  | other

/-- What `_bjobs` raises. -/
inductive Failure
  | command (e : CommandError)
  /-- An exception `bjobs_by_ids` does not catch. -/
  | other

/-- `_NO_JOB_PATTERNS` -/
def noJobPatterns : List Text :=
  ["no unfinished job", "no matching job", "is not found", "no job found"].map String.toList

/-- `_BJOBS_FIELD_ERR` -/
def bjobsFieldErr : List Text :=
  ["run_time", "start_time", "finish_time", "source_cluster", "forward_cluster", "unknown field",
    "bad field", "field name", "illegal", "not a valid", "unrecognized", "output format",
    "format specification", "invalid format", "illegal option"].map String.toList

/-- The error of a source that is shut down. -/
def closedError : CommandError := { message := "상태 조회원이 종료되었습니다".toList }

/-- What the commands are run with: the configuration, the interpreter, the reading of times, which
may raise. -/
structure Site where
  cfg : Config
  py : Python
  parseTime : Text → Reading (Option Time)

namespace Site

variable (site : Site)

/-- `_looks_like_field_error` -/
def looksLikeFieldError (errText : Text) : Bool :=
  bjobsFieldErr.any fun p => isIn p (site.py.lower errText)

/-- The output says that some job does not exist. -/
def saysNoJob (stdout stderr : Text) : Bool :=
  noJobPatterns.any fun p => isIn p (site.py.lower (stderr ++ stdout))

/-- The number of formats. -/
def formats : ℕ := site.cfg.bjobsFormats.length

/-- `_bjobs_formats[i]` -/
def format (i : ℕ) : Text := site.cfg.bjobsFormats.getD i []

/-- `_run_query` once it has started the command: the output, or what is raised. -/
def runQuery (argv : List Text) (down : Bool) : RunnerAnswer → Except Failure Text
  | .timeout => .error (.command { message := argv.headD [] ++ " timeout".toList })
  | .commandError e => .error (.command e)
  | .other => .error .other
  | .result returncode stdout stderr =>
    if down then .error (.command closedError)
    else if returncode ≠ 0 ∧ site.saysNoJob stdout stderr = false then
      .error (.command
        { message := argv.headD [] ++ s!" exit {returncode}: ".toList ++
            (site.py.strip stderr).take 200
          returncode, stderr })
    else .ok stdout

end Site

/-- The last attempt of a `_bjobs` call: the format it used, whether the source was shut down, and
what the runner answered, if it was run at all. -/
structure Attempt where
  fmtIdx : ℕ
  down : Bool
  answer : Option RunnerAnswer

/-- What `_bjobs` returns or raises after its last attempt. -/
def Attempt.result (site : Site) (chunk : List Text) (a : Attempt) :
    Except Failure (List JobStatus) :=
  match a.answer with
  | none => .error (.command closedError)
  | some answer =>
    match site.runQuery (site.cfg.bjobsArgv (site.format a.fmtIdx) chunk) a.down answer with
    | .error f => .error f
    | .ok stdout =>
      match parseBjobs site.py site.parseTime stdout with
      | .ok rows => .ok rows
      | .error _ => .error .other

/-! ## `_bjobs` -/

/-- Where a `_bjobs` call stands; `runs` counts the commands it has run. -/
inductive Stage
  /-- At the head of the loop. -/
  | select (runs : ℕ)
  /-- The index has been read. -/
  | selected (usedIdx runs : ℕ)
  /-- The runner has been called. -/
  | running (usedIdx runs : ℕ)
  /-- At the lock, to move the index on. -/
  | degrade (usedIdx runs : ℕ)
  | ended (last : Attempt) (runs : ℕ)

inductive Move
  | select
  | run
  | answer (a : RunnerAnswer)
  | degrade

/-- What the threads share. -/
structure Shared where
  fmtIdx : ℕ
  /-- `_status_shutdown` -/
  down : Bool

namespace Stage

variable (site : Site) (chunk : List Text)

/-- The handler of `LsfCommandError`: another round, or the error is raised. -/
def afterError (last : Attempt) (runs : ℕ) : Stage :=
  match last.result site chunk with
  | .error (.command e) =>
    if last.fmtIdx < site.formats - 1 ∧ site.looksLikeFieldError e.stderr then
      .degrade last.fmtIdx runs
    else .ended last runs
  | _ => .ended last runs

/-- A step of `_bjobs`, and the index after it. -/
def step (g : Shared) : Stage → Move → Option (ℕ × Stage)
  | .select runs, .select => some (g.fmtIdx, .selected g.fmtIdx runs)
  | .selected usedIdx runs, .run =>
    some (g.fmtIdx, if g.down then afterError site chunk ⟨usedIdx, true, none⟩ runs
      else .running usedIdx (runs + 1))
  | .running usedIdx runs, .answer a =>
    some (g.fmtIdx, afterError site chunk ⟨usedIdx, g.down, some a⟩ runs)
  | .degrade usedIdx runs, .degrade =>
    some (if g.fmtIdx = usedIdx then usedIdx + 1 else g.fmtIdx, .select runs)
  | _, _ => none

/-- The command line a step hands to the runner. -/
def handing (g : Shared) : Stage → Move → List (List Text)
  | .selected usedIdx _, .run =>
    if g.down then [] else [site.cfg.bjobsArgv (site.format usedIdx) chunk]
  | _, _ => []

/-- The error of a query that a step has got, with the format it was run with. -/
def failing (g : Shared) : Stage → Move → List (ℕ × Failure)
  | .selected usedIdx _, .run => if g.down then [(usedIdx, .command closedError)] else []
  | .running usedIdx _, .answer a =>
    match (Attempt.mk usedIdx g.down (some a)).result site chunk with
    | .error f => [(usedIdx, f)]
    | .ok _ => []
  | _, _ => []

end Stage

/-! ## `bjobs_by_ids` -/

inductive Phase
  /-- At the head of the loop over the chunks. -/
  | loop
  /-- `_bjobs` of the first of the chunks to do. -/
  | bjobs (stage : Stage)
  | returned
  /-- `ArgMaxExceededError` -/
  | argMax (message : Text)
  /-- Another exception. -/
  | raised
  /-- The callback source answers. -/
  | callback

/-- A call of `bjobs_by_ids`.  `asked` and `handed` are for the record: the chunks that were asked
for, each with its last attempt, and the command lines run for it. -/
structure Call where
  jobIds : List ℕ
  todo : List (List Text)
  out : List JobStatus := []
  failed : Finset ℕ := ∅
  consecutive : ℕ := 0
  phase : Phase
  asked : List (List Text × Attempt) := []
  handed : List (List Text) := []

inductive CallMove
  | next
  | bjobs (m : Move)
  | collect

/-- `failed.update(int(x) for x in chunk)` -/
def chunkIds (chunk : List Text) : Finset ℕ := (chunk.map textId).toFinset

namespace Call

/-- The call before its first step; the chunks are cut before anything is run. -/
def start (site : Site) (jobIds : List ℕ) : Call :=
  if site.cfg.jobStatusFetcher then { jobIds, todo := [], phase := .callback }
  else
    let chunks := chunkArgs site.cfg.chunkSize site.cfg.argMax site.cfg.bjobsBaseLen
      (jobIds.map idText)
    match chunks.raised with
    | some message => { jobIds, todo := [], phase := .argMax message }
    | none => { jobIds, todo := chunks.chunks, phase := .loop }

/-- What the loop does with the end of a `_bjobs` call. -/
def collect (c : Call) (chunk : List Text) (rest : List (List Text)) (last : Attempt) :
    Except Failure (List JobStatus) → Call
  | .ok rows =>
    { c with todo := rest, out := c.out ++ rows, consecutive := 0, phase := .loop
             asked := c.asked ++ [(chunk, last)] }
  | .error (.command _) =>
    let failed := c.failed ∪ chunkIds chunk
    let consecutive := c.consecutive + 1
    if consecutive ≥ 2 ∧ rest ≠ [] then
      -- the service is down: the rest is not asked for
      { c with todo := rest, failed := failed ∪ (rest.map chunkIds).foldr (· ∪ ·) ∅, consecutive
               phase := .returned, asked := c.asked ++ [(chunk, last)] }
    else
      { c with todo := rest, failed, consecutive, phase := .loop
               asked := c.asked ++ [(chunk, last)] }
  | .error .other => { c with todo := rest, phase := .raised, asked := c.asked ++ [(chunk, last)] }

/-- A step of a call, and the index after it. -/
def step (site : Site) (g : Shared) (c : Call) : CallMove → Option (ℕ × Call)
  | .next =>
    match c.phase, c.todo with
    | .loop, [] => some (g.fmtIdx, { c with phase := .returned })
    | .loop, _ :: _ => some (g.fmtIdx, { c with phase := .bjobs (.select 0) })
    | _, _ => none
  | .bjobs m =>
    match c.phase, c.todo with
    | .bjobs stage, chunk :: _ =>
      (stage.step site chunk g m).map fun out =>
        (out.1, { c with phase := .bjobs out.2, handed := c.handed ++ stage.handing site chunk g m })
    | _, _ => none
  | .collect =>
    match c.phase, c.todo with
    | .bjobs (.ended last _), chunk :: rest =>
      some (g.fmtIdx, c.collect chunk rest last (last.result site chunk))
    | _, _ => none

/-- The errors of queries that a step of the call has got. -/
def failing (site : Site) (g : Shared) (c : Call) : CallMove → List (ℕ × Failure)
  | .bjobs m =>
    match c.phase, c.todo with
    | .bjobs stage, chunk :: _ => stage.failing site chunk g m
    | _, _ => []
  | _ => []

end Call

/-! ## The system -/

/-- The calls of the threads.  `errors` is for the record: the errors of queries, each with the
format it was run with. -/
structure State where
  shared : Shared
  calls : List Call := []
  errors : List (ℕ × Failure) := []

inductive Act
  | call (jobIds : List ℕ)
  | move (i : ℕ) (m : CallMove)
  /-- `shutdown_status_source` -/
  | shutdown

def State.step (site : Site) (s : State) : Act → Option State
  | .call jobIds => some { s with calls := s.calls ++ [Call.start site jobIds] }
  | .move i m =>
    (s.calls[i]?).bind fun c => (c.step site s.shared m).map fun out =>
      { s with
        shared := { s.shared with fmtIdx := out.1 }
        calls := replaceAt s.calls i [out.2]
        errors := s.errors ++ c.failing site s.shared m }
  | .shutdown => some { s with shared := { s.shared with down := true } }

/-- Everything a step of a call can do. -/
theorem Call.step_cases {site : Site} {g : Shared} {c : Call} {m : CallMove} {out : ℕ × Call}
    (h : c.step site g m = some out) :
    (m = .next ∧ c.phase = .loop ∧ c.todo = [] ∧
      out = (g.fmtIdx, { c with phase := .returned })) ∨
    (∃ chunk rest, m = .next ∧ c.phase = .loop ∧ c.todo = chunk :: rest ∧
      out = (g.fmtIdx, { c with phase := .bjobs (.select 0) })) ∨
    (∃ m' stage chunk rest out', m = .bjobs m' ∧ c.phase = .bjobs stage ∧ c.todo = chunk :: rest ∧
      stage.step site chunk g m' = some out' ∧
      out = (out'.1, { c with
        phase := .bjobs out'.2, handed := c.handed ++ stage.handing site chunk g m' })) ∨
    (∃ last runs chunk rest, m = .collect ∧ c.phase = .bjobs (.ended last runs) ∧
      c.todo = chunk :: rest ∧
      out = (g.fmtIdx, c.collect chunk rest last (last.result site chunk))) := by
  cases m with
  | next =>
    simp only [Call.step] at h
    split at h
    case h_1 hp ht => exact .inl ⟨rfl, hp, ht, (Option.some.inj h).symm⟩
    case h_2 chunk rest hp ht =>
      exact .inr (.inl ⟨chunk, rest, rfl, hp, ht, (Option.some.inj h).symm⟩)
    case h_3 => cases h
  | bjobs m' =>
    simp only [Call.step] at h
    split at h
    case h_1 stage chunk rest hp ht =>
      obtain ⟨out', hstep, rfl⟩ := Option.map_eq_some_iff.mp h
      exact .inr (.inr (.inl ⟨m', stage, chunk, rest, out', rfl, hp, ht, hstep, rfl⟩))
    case h_2 => cases h
  | collect =>
    simp only [Call.step] at h
    split at h
    case h_1 last runs chunk rest hp ht =>
      exact .inr (.inr (.inr ⟨last, runs, chunk, rest, rfl, hp, ht, (Option.some.inj h).symm⟩))
    case h_2 => cases h

/-- Everything a step of the system can do. -/
theorem State.step_cases {site : Site} {s s' : State} {a : Act} (h : s.step site a = some s') :
    (∃ jobIds, a = .call jobIds ∧ s' = { s with calls := s.calls ++ [Call.start site jobIds] }) ∨
    (∃ i m c out, a = .move i m ∧ s.calls[i]? = some c ∧ c.step site s.shared m = some out ∧
      s' = { shared := { s.shared with fmtIdx := out.1 }
             calls := replaceAt s.calls i [out.2]
             errors := s.errors ++ c.failing site s.shared m }) ∨
    (a = .shutdown ∧ s' = { s with shared := { s.shared with down := true } }) := by
  cases a <;> simp only [State.step] at h
  case call jobIds => exact .inl ⟨jobIds, rfl, (Option.some.inj h).symm⟩
  case move i m =>
    obtain ⟨c, hc, h⟩ := Option.bind_eq_some_iff.mp h
    obtain ⟨out, hout, rfl⟩ := Option.map_eq_some_iff.mp h
    exact .inr (.inl ⟨i, m, c, out, rfl, hc, hout, rfl⟩)
  case shutdown => exact .inr (.inr ⟨rfl, (Option.some.inj h).symm⟩)

theorem Call.start_phase (site : Site) (jobIds : List ℕ) (stage : Stage) :
    (Call.start site jobIds).phase ≠ .bjobs stage := by
  rw [Call.start]
  split
  · simp
  · dsimp only
    split <;> simp

/-- The calls of the threads, from a time at which the index of the format is `level` and no call is
under way; it is 0 when the commands are set up. -/
def queries (site : Site) (level : ℕ) : System State Act where
  init s := s = { shared := ⟨level, false⟩ }
  step := State.step site

/-- The default configuration. -/
def plainSite : Site := { cfg := {}, py := .ascii, parseTime := fun _ => .ok none }

end Lsfmgr.Command
