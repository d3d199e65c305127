import Mathlib
import Lsfmgr.Machinery.Pool
import Lsfmgr.Machinery.Transition
import Lsfmgr.Status.Source

/-!
# Status/Flight — callers and fetch workers of a callback status source

A caller that does not find the ledger new enough sees to it that a fetch is under way, and waits
for it; the fetch runs on a thread of its own, without the lock, and may return late or never.  When
the deadline of the fetch has passed, the next caller *takes over*: it starts another one, whose
token replaces that of the first.

Each step is one lock section, or one piece of code between two of them.  A section reads the
monotonic clock several times (`Reads`); a callback may return a payload, raise, or do neither.
-/

namespace Lsfmgr.Status

open Machinery

/-- What came of a callback: the rows that could be parsed and are of ids in the interest set as it
was then, an `Exception`, or another `BaseException`. -/
inductive Outcome
  | rows (keep : Finset ℕ) (statuses : List JobStatus)
  | failed
  | aborted

def Outcome.statuses? : Outcome → Option (List JobStatus)
  | rows _ statuses => some statuses
  | failed | aborted => none

/-- Where a fetch worker stands. -/
inductive FetchStage
  /-- The thread has been started. -/
  | starting
  /-- It has read its clocks. -/
  | timed
  /-- `_attempt_primary` has raised the counter. -/
  | counted
  /-- In the primary callback. -/
  | primary
  /-- The primary callback has returned a payload. -/
  | primaryReturned
  /-- In the `finally` clause of `_attempt_primary`. -/
  | uncounting (outcome : Outcome)
  /-- The primary attempt has failed, the failover callback is next. -/
  | switching
  /-- In the failover callback. -/
  | backup
  | backupReturned
  /-- Before the last section. -/
  | finishing (outcome : Outcome) (servedByFailover : Bool)

/-- A started and unfinished `_fetch_worker`. -/
structure Worker where
  token : ℕ
  useFailover : Bool
  fetchAt : ℤ := 0
  now : Time := 0
  stage : FetchStage := .starting

/-- The locals of `_ensure_fetched`. -/
structure Terms where
  fresh : Bool
  started : ℤ
  minAt : ℤ
  deadline : ℤ

/-- Where a call of `statuses_by_ids` stands.  `from` and `upTo` count the successful fetches merged
when the call last began to wait and when `_ensure_fetched` returned; no step reads them. -/
inductive AskStage
  | begun
  /-- The interest is registered; the fetch must be fresh, or need not. -/
  | registered (fresh : Bool)
  /-- Before the lock section of `_ensure_fetched`. -/
  | ensuring (terms : Terms)
  /-- In `wait`. -/
  | waiting (terms : Terms) (before : WithBot ℤ) (gen : ℕ) («from» : ℕ)
  /-- `_ensure_fetched` has returned `True`. -/
  | fetched (terms : Terms) («from» upTo : ℕ)
  | answered (terms : Terms) (statuses : List JobStatus) («from» upTo : ℕ)
  /-- All ids are put off. -/
  | failed
  /-- The thread could not be started. -/
  | raised

/-- A call of `statuses_by_ids` with some ids.  `wasNew`: one of them was not of interest before;
`refresh`: the refresh interval the call read. -/
structure Caller where
  ids : List ℕ
  fresh : Bool
  began : ℤ
  wasNew : Bool := false
  refresh : ℤ := 0
  stage : AskStage := .begun

/-- The monotonic clock as read in the course of one section. -/
structure Reads where
  takeover : ℤ
  launch : ℤ
  wait : ℤ
  note : ℤ

/-- The readings do not go back, and none is earlier than `clock`. -/
def Reads.After (r : Reads) (clock : ℤ) : Prop :=
  clock ≤ r.takeover ∧ r.takeover ≤ r.launch ∧ r.launch ≤ r.wait ∧ r.wait ≤ r.note

instance (r : Reads) (clock : ℤ) : Decidable (r.After clock) :=
  inferInstanceAs (Decidable (_ ∧ _ ∧ _ ∧ _))

/-- The source with its callers and workers.  `merged` are the fetches merged successfully, the
first one first: start time and interest set at the time of the parse.  `lost` are the tokens of the
launches that failed.  No step reads the two. -/
structure State where
  src : Source
  clock : ℤ := 0
  nextToken : ℕ := 0
  workers : List Worker := []
  callers : List Caller := []
  merged : List (ℤ × Finset ℕ) := []
  lost : List ℕ := []

inductive Act
  /-- The monotonic clock advances. -/
  | tick (clock : ℤ)
  | ask (ids : List ℕ) (fresh : Bool)
  | register (j : ℕ)
  /-- `_ensure_fetched` reads the clock. -/
  | setOut (j : ℕ)
  | check (j : ℕ) (r : Reads) (startOk : Bool)
  /-- `wait` returns, and says whether it was notified. -/
  | wake (j : ℕ) (notified : Bool) (r : Reads) (startOk : Bool)
  | read (j : ℕ)
  /-- A worker reads its clocks. -/
  | begin (i : ℕ) (now : Time)
  | count (i : ℕ)
  /-- It calls the callback that is next. -/
  | call (i : ℕ)
  /-- The callback returns a payload… -/
  | «return» (i : ℕ)
  /-- …or raises. -/
  | raise (i : ℕ) (aborted : Bool)
  /-- The payload is parsed, or cannot be. -/
  | parse (i : ℕ) (rows : Option (List JobStatus))
  | uncount (i : ℕ)
  | finish (i : ℕ)
  | invalidate
  | forget (jobIds : List ℕ)
  | notePollInterval (intervalS : ℤ)
  | shutdown

/-- What a caller that finds the ledger too old does about the fetch. -/
inductive Plan
  | join
  | launch
  | giveUp
  deriving DecidableEq

/-- The decision of `_start_or_takeover_locked`. -/
def Source.plan (s : Source) (clock : ℤ) : Plan :=
  if ¬s.fetching then .launch
  else if clock < s.fetchDeadline then .join
  else if maxInflight ≤ s.inflight then .giveUp
  else .launch

namespace State

variable (o : Options)

def setCaller (s : State) (j : ℕ) (c : Caller) (stage : AskStage) : State :=
  { s with callers := replaceAt s.callers j [{ c with stage }] }

def setWorker (s : State) (i : ℕ) (w : Worker) (stage : FetchStage) : State :=
  { s with workers := replaceAt s.workers i [{ w with stage }] }

/-- A caller has waited long enough, or need not try. -/
def putOff (s : State) (j : ℕ) (c : Caller) (r : Reads) : State :=
  { s with src := s.src.noteOutcome r.note false false, clock := r.note }.setCaller j c .failed

/-- `_start_fetch_locked`; without a thread the counters stay raised. -/
def launch (s : State) (r : Reads) (startOk : Bool) : State :=
  let useFailover := s.src.useFailover o
  let s := { s with
    src := s.src.startFetch o s.nextToken r.launch
    nextToken := s.nextToken + 1 }
  if startOk then { s with workers := { token := s.nextToken - 1, useFailover } :: s.workers }
  else { s with lost := (s.nextToken - 1) :: s.lost }

/-- `_wait_once_locked` up to the wait. -/
def await (s : State) (j : ℕ) (c : Caller) (p : Terms) (r : Reads) : State :=
  if p.deadline ≤ r.wait then s.putOff j c r
  else { s with clock := r.note }.setCaller j c
    (.waiting p s.src.lastFetchAt s.src.gen s.merged.length)

/-- One round of the loop of `_ensure_fetched`, up to the wait. -/
def round (s : State) (j : ℕ) (c : Caller) (p : Terms) (r : Reads) (startOk : Bool) : State :=
  if s.src.closed then s.setCaller j c .failed
  else if (p.minAt : WithBot ℤ) ≤ s.src.lastFetchAt then
    s.setCaller j c (.fetched p s.merged.length s.merged.length)
  else
    match s.src.plan r.takeover with
    | .giveUp => s.putOff j c r
    | .join => s.await j c p r
    | .launch =>
      let s := s.launch o r startOk
      if startOk then s.await j c p r
      else { s with clock := r.note }.setCaller j c .raised

/-- The rest of the round after the wait, and the next round if there is one. -/
def wake (s : State) (j : ℕ) (c : Caller) (p : Terms) (before : WithBot ℤ) (gen «from» : ℕ)
    (notified : Bool) (r : Reads) (startOk : Bool) : State :=
  if ¬notified then s.putOff j c r
  else if s.src.closed then s.setCaller j c .failed
  else if s.src.gen = gen then s.round o j c p r startOk
  else if s.src.lastFetchAt ≤ before then s.setCaller j c .failed
  else if (p.minAt : WithBot ℤ) ≤ s.src.lastFetchAt ∨ ¬p.fresh then
    s.setCaller j c (.fetched p «from» s.merged.length)
  else s.round o j c p r startOk

/-- `_register_interest` of a call. -/
def register (s : State) (j : ℕ) (c : Caller) : State :=
  let (new, src) := s.src.registerInterest c.ids
  { s with src }.setCaller j { c with wasNew := new } (.registered (c.fresh || new))

/-- The clocks of `_ensure_fetched`. -/
def setOut (s : State) (j : ℕ) (c : Caller) (fresh : Bool) : State :=
  let started := s.clock
  s.setCaller j { c with refresh := s.src.refreshMinS } (.ensuring
    { fresh, started
      minAt := if fresh then started else started - s.src.refreshMinS
      deadline := started + o.waitTimeout })

/-- The step of a caller. -/
def ask (s : State) (j : ℕ) (c : Caller) : Act → Option State
  | .register _ =>
    match c.stage with
    | .begun => some (s.register j c)
    | _ => none
  | .setOut _ =>
    match c.stage with
    | .registered fresh => some (s.setOut o j c fresh)
    | _ => none
  | .check _ r startOk =>
    match c.stage with
    | .ensuring p => if r.After s.clock then some (s.round o j c p r startOk) else none
    | _ => none
  | .wake _ notified r startOk =>
    match c.stage with
    | .waiting p before gen «from» =>
      if r.After s.clock then some (s.wake o j c p before gen «from» notified r startOk) else none
    | _ => none
  | .read _ =>
    match c.stage with
    | .fetched p «from» upTo =>
      some (s.setCaller j c (.answered p (s.src.statuses c.ids) «from» upTo))
    | _ => none
  | _ => none

/-- The next stage of a worker, by steps that touch the worker alone. -/
def nextStage (interest : Finset ℕ) (w : Worker) : Act → Option FetchStage
  | .call _ =>
    match w.stage with
    | .counted => some .primary
    | .timed => if w.useFailover then some .backup else none
    | .switching => some .backup
    | _ => none
  | .return _ =>
    match w.stage with
    | .primary => some .primaryReturned
    | .backup => some .backupReturned
    | _ => none
  | .raise _ aborted =>
    let outcome := if aborted then Outcome.aborted else .failed
    match w.stage with
    | .primary => some (.uncounting outcome)
    | .backup => some (.finishing outcome w.useFailover)
    | _ => none
  | .parse _ rows =>
    let outcome := match rows with
      | some rows => Outcome.rows interest (rows.filter fun st => st.jobId ∈ interest)
      | none => .failed
    match w.stage with
    | .primaryReturned => some (.uncounting outcome)
    | .backupReturned => some (.finishing outcome rows.isSome)
    | _ => none
  | _ => none

/-- The step of a worker. -/
def fetch (s : State) (i : ℕ) (w : Worker) : Act → Option State
  | .begin _ now =>
    match w.stage with
    | .starting => some (s.setWorker i { w with fetchAt := s.clock, now } .timed)
    | _ => none
  | .count _ =>
    match w.stage with
    | .timed =>
      if w.useFailover then none
      else some ({ s with src.primaryUnreturned := s.src.primaryUnreturned + 1 }.setWorker i w
        .counted)
    | _ => none
  | .uncount _ =>
    match w.stage with
    | .uncounting outcome =>
      let s := { s with src.primaryUnreturned := s.src.primaryUnreturned - 1 }
      match outcome, o.failover with
      -- only an `Exception` is followed by the failover callback
      | .failed, true => some (s.setWorker i w .switching)
      | _, _ => some (s.setWorker i w (.finishing outcome false))
    | _ => none
  | .finish _ =>
    match w.stage with
    | .finishing outcome served => some { s with
        src := s.src.finish o w.token w.fetchAt w.now outcome.statuses? served
        workers := replaceAt s.workers i []
        merged := match outcome with
          | .rows keep _ => s.merged ++ [(w.fetchAt, keep)]
          | _ => s.merged }
    | _ => none
  | a => (nextStage s.src.interest w a).map (s.setWorker i w)

def step (s : State) : Act → Option State
  | .tick clock => if s.clock ≤ clock then some { s with clock } else none
  | .ask ids fresh =>
    if ids = [] then none
    else some { s with callers := { ids, fresh, began := s.clock } :: s.callers }
  | .invalidate => some { s with src := s.src.invalidate }
  | .forget jobIds => some { s with src := s.src.forget jobIds }
  | .notePollInterval intervalS => some { s with src := s.src.notePollInterval o intervalS }
  | .shutdown => some { s with src := s.src.shutdown }
  | .register j => s.callers[j]?.bind fun c => s.ask o j c (.register j)
  | .setOut j => s.callers[j]?.bind fun c => s.ask o j c (.setOut j)
  | .check j r ok => s.callers[j]?.bind fun c => s.ask o j c (.check j r ok)
  | .wake j notified r ok => s.callers[j]?.bind fun c => s.ask o j c (.wake j notified r ok)
  | .read j => s.callers[j]?.bind fun c => s.ask o j c (.read j)
  | .begin i now => s.workers[i]?.bind fun w => s.fetch o i w (.begin i now)
  | .count i => s.workers[i]?.bind fun w => s.fetch o i w (.count i)
  | .call i => s.workers[i]?.bind fun w => s.fetch o i w (.call i)
  | .return i => s.workers[i]?.bind fun w => s.fetch o i w (.return i)
  | .raise i aborted => s.workers[i]?.bind fun w => s.fetch o i w (.raise i aborted)
  | .parse i rows => s.workers[i]?.bind fun w => s.fetch o i w (.parse i rows)
  | .uncount i => s.workers[i]?.bind fun w => s.fetch o i w (.uncount i)
  | .finish i => s.workers[i]?.bind fun w => s.fetch o i w (.finish i)

end State

/-- The source with any number of callers. -/
def system (o : Options) : System State Act where
  init s := s = { src := o.source }
  step := State.step o

end Lsfmgr.Status
