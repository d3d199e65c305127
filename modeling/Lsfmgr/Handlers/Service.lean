import Mathlib
import Lsfmgr.Machinery.Pool
import Lsfmgr.Machinery.Transition
import Lsfmgr.Store.Counts

/-!
# Handlers/Service — the handlers of a jobset: registration, evaluation, the run queue

A poll ends in a `tick` on the main thread, which only decides what is to run; the handlers
themselves run on at most `maxHandlerWorkers` threads that empty a common queue.  The status of a
job under a handler belongs to the handler object and is touched by the main thread alone; the
in-flight marks belong to the service, so they outlive a handler that is removed and added again.

Each step is one critical section, or one piece of code between two of them.  The main thread is at
a control point `Main`; what it takes from its event loop is taken at `idle`.
-/

namespace Lsfmgr

namespace Handlers

open Machinery

/-- How far a job is under a handler: `_PENDING`, `_RUNNING`, `_FINISHED`. -/
inductive Progress
  | pending
  | running
  | finished
  deriving DecidableEq, Repr

/-- The number of handlers that may run at a time. -/
def maxHandlerWorkers : ℕ := 4

def defaultStartStates : List JobState := [.run]

def defaultEndStates : List JobState := [.done, .exit]

/-- What a caller may give as states: nothing, one state, or several. -/
inductive StateSpec
  | none
  | one (state : JobState)
  | many (states : List JobState)

def asStates (default : List JobState) : StateSpec → List JobState
  | .none => default
  | .one state => [state]
  | .many states => states

/-- A registered handler; `id` is the identity of the object, new with every registration. -/
structure Handler where
  id : ℕ
  jobsetId : String
  name : String
  startStates : List JobState
  endStates : List JobState
  status : Dict String Progress := ∅

/-- Jobset, handler name and job key. -/
abbrev InflightKey := String × String × String

/-- An entry `(h, rec, final)` of the run queue. -/
structure Item where
  handler : ℕ
  jobsetId : String
  name : String
  record : JobRecord
  final : Bool
  deriving DecidableEq

def Item.key (i : Item) : InflightKey := (i.jobsetId, i.name, i.record.jobKey)

/-- What one run sends out: `data` when the handler returned, `error` when it raised. -/
structure HandlerResult where
  handlerName : String
  jobsetId : String
  jobKey : String
  jobId : Option ℕ
  final : Bool
  data : Option String := none
  error : Option String := none
  deriving DecidableEq

/-- The result of a call that returned a value or raised. -/
def Item.result (i : Item) : Except String String → HandlerResult
  | .ok data => ⟨i.name, i.jobsetId, i.record.jobKey, i.record.jobId, i.final, some data, none⟩
  | .error e => ⟨i.name, i.jobsetId, i.record.jobKey, i.record.jobId, i.final, none, some e⟩

/-! ## The decision about one record -/

inductive Verdict
  /-- Nothing happens. -/
  | skip
  /-- The job can go no further: finished without a last run. -/
  | close
  | run (final : Bool)
  deriving DecidableEq

def Handler.statusOf (h : Handler) (jobKey : String) : Progress :=
  (h.status.get? jobKey).getD .pending

/-- The tests of `_eval_record`, for a job whose in-flight mark is `inflight`. -/
def Handler.verdict (h : Handler) (inflight : Bool) (rec : JobRecord) : Verdict :=
  let st := h.statusOf rec.jobKey
  if st = .finished ∨ inflight then .skip
  else
    let inEnd := rec.state ∈ h.endStates
    let inStart := rec.state ∈ h.startStates
    if rec.state.isTerminal ∧ ¬ inEnd then .close
    else if st = .pending ∧ ¬ inStart ∧ ¬ inEnd then .skip
    else .run inEnd

/-- What the verdict leaves in the status; a skipped job keeps what it has. -/
def Verdict.progress? : Verdict → Option Progress
  | .skip => none
  | .close => some .finished
  | .run final => some (if final then .finished else .running)

def Handler.setStatus (h : Handler) (jobKey : String) : Option Progress → Handler
  | none => h
  | some p => { h with status := h.status.set jobKey p }

/-- One handler's part of `rearm`. -/
def Handler.rearm (h : Handler) : Option (List String) → Handler
  | none => { h with status := ∅ }
  | some keys => { h with status := keys.foldl Dict.erase h.status }

/-! ## The service -/

/-- The registry key of a handler: jobset and name. -/
abbrev HandlerKey := String × String

/-- Where the main thread is. -/
inductive Main
  /-- In its event loop. -/
  | idle
  /-- In `_run_cycle`, with these evaluations to do; with none left, at the lock of `_pump`. -/
  | evaluating (todo : List (HandlerKey × JobRecord))
  /-- In `_eval_record`, before `_mark_inflight`. -/
  | marking (item : Item) (todo : List (HandlerKey × JobRecord))
  /-- In `_eval_record`, before the append. -/
  | enqueuing (item : Item) (todo : List (HandlerKey × JobRecord))
  /-- In `_pump`, with this many workers reserved and not yet started. -/
  | starting (n : ℕ)
  /-- In `shutdown`, before the queue is thinned out. -/
  | dropping
  /-- In `shutdown`, at `waitForDone`. -/
  | waiting
  /-- In `shutdown`, past `waitForDone`. -/
  | clearing
  deriving DecidableEq

/-- Where a drain worker is. -/
inductive Worker
  /-- Before it looks at the queue. -/
  | top
  /-- In the handler. -/
  | running (item : Item)
  /-- The handler came back; the in-flight mark still stands. -/
  | returned (item : Item) (result : HandlerResult)
  /-- Before `finished.emit`. -/
  | emitting (item : Item) (result : HandlerResult)
  /-- Before `_recheck.emit`. -/
  | rechecking (item : Item)
  deriving DecidableEq

/-- The item whose run holds its in-flight mark. -/
def Worker.item? : Worker → Option Item
  | .running i | .returned i _ => some i
  | _ => none

/-- The service and the store it reads.  `finished` and `rechecks` are the signals sent; the last
four fields are ghosts: the items ever put into the queue, taken from it, run to the end, and
dropped. -/
structure Service where
  store : InMemoryStore := {}
  handlers : Dict HandlerKey Handler := ∅
  nextId : ℕ := 0
  inflight : Finset InflightKey := ∅
  queue : List Item := []
  draining : ℤ := 0
  main : Main := .idle
  workers : List Worker := []
  finished : List HandlerResult := []
  rechecks : List InflightKey := []
  enqueued : List Item := []
  started : List Item := []
  completed : List Item := []
  dropped : List Item := []

namespace Service

/-- The handlers of a jobset, with the keys they are registered under. -/
def handlersOf (s : Service) (js : String) : List (HandlerKey × Handler) :=
  s.handlers.entries.filter fun e => e.1.1 = js

/-! ### Registration -/

/-- `add_handler`; a name in use raises, and nothing changes. -/
def addHandler (s : Service) (js name : String) (startStates endStates : StateSpec) : Service :=
  if (js, name) ∈ s.handlers.keys then s
  else
    { s with
      nextId := s.nextId + 1
      handlers := s.handlers.set (js, name)
        { id := s.nextId
          jobsetId := js
          name
          startStates := asStates defaultStartStates startStates
          endStates := asStates defaultEndStates endStates } }

def removeHandler (s : Service) (js name : String) : Service :=
  { s with handlers := s.handlers.erase (js, name) }

def removeAll (s : Service) (js : String) : Service :=
  { s with handlers := s.handlers.filter fun k _ => k.1 ≠ js }

/-- `rearm`: the listed jobs of the jobset, or all of them, are pending again. -/
def rearm (s : Service) (js : String) (keys : Option (List String)) : Service :=
  { s with handlers := s.handlers.mapValues fun k h => if k.1 = js then h.rearm keys else h }

/-! ### The main thread -/

/-- `tick`, up to the evaluations.  A jobset that is gone loses its handlers; `fault` is any other
exception of the store, for which the cycle is skipped. -/
def tick (s : Service) (js : String) (fault : Bool) : Service :=
  let hs := s.handlersOf js
  if hs = [] ∨ fault then s
  else match s.store.getJobs js with
    | .error _ => s.removeAll js
    | .ok recs =>
      { s with main := .evaluating (hs.flatMap fun e => recs.map fun rec => (e.1, rec)) }

/-- `_on_recheck`, for the oldest such signal; only a job that has ended is evaluated. -/
def onRecheck (s : Service) (fault : Bool) : Option Service :=
  match s.rechecks with
  | [] => none
  | (js, name, jobKey) :: rechecks =>
    let s := { s with rechecks }
    match s.handlers.get? (js, name), s.store.getJob js jobKey with
    | some h, .ok rec =>
      if ¬ fault ∧ (rec.state ∈ h.endStates ∨ rec.state.isTerminal) then
        some { s with main := .evaluating [((js, name), rec)] }
      else some s
    | _, _ => some s

/-- `_eval_record`, up to `_mark_inflight`. -/
def evalRecord (s : Service) (k : HandlerKey) (rec : JobRecord)
    (todo : List (HandlerKey × JobRecord)) : Service :=
  match s.handlers.get? k with
  | none => { s with main := .evaluating todo }
  | some h =>
    let v := h.verdict ((k.1, k.2, rec.jobKey) ∈ s.inflight) rec
    { s with
      handlers := s.handlers.set k (h.setStatus rec.jobKey v.progress?)
      main := match v with
        | .run final => .marking ⟨h.id, k.1, k.2, rec, final⟩ todo
        | _ => .evaluating todo }

/-- The critical section of `_pump`. -/
def reserve (s : Service) : Service :=
  let want := min ((maxHandlerWorkers : ℤ) - s.draining) s.queue.length
  { s with
    draining := s.draining + want
    main := .starting want.toNat }

/-- `shutdown` keeps only the last runs in the queue. -/
def dropIntermediate (s : Service) : Service :=
  { s with
    queue := s.queue.filter (·.final)
    dropped := s.dropped ++ s.queue.filter fun i => !i.final
    main := .waiting }

/-- The next piece of what the main thread is doing. -/
def mainStep (s : Service) : Option Service :=
  match s.main with
  | .idle => none
  | .evaluating [] => some s.reserve
  | .evaluating ((k, rec) :: todo) => some (s.evalRecord k rec todo)
  | .marking item todo =>
    some { s with
      inflight := insert item.key s.inflight
      main := .enqueuing item todo }
  | .enqueuing item todo =>
    some { s with
      queue := s.queue ++ [item]
      enqueued := s.enqueued ++ [item]
      main := .evaluating todo }
  | .starting 0 => some { s with main := .idle }
  | .starting (n + 1) =>
    some { s with
      workers := s.workers ++ [.top]
      main := .starting n }
  | .dropping => some s.dropIntermediate
  | .waiting => if s.workers = [] then some { s with main := .clearing } else none
  | .clearing =>
    some { s with
      inflight := ∅
      main := .idle }

/-! ### The workers -/

/-- A drain worker looks at the queue: it takes the first item, or signs off. -/
def take (s : Service) (w : ℕ) : Service :=
  match s.queue with
  | [] =>
    { s with
      draining := s.draining - 1
      workers := replaceAt s.workers w [] }
  | item :: queue =>
    { s with
      queue
      workers := replaceAt s.workers w [.running item]
      started := s.started ++ [item] }

/-- The next piece of what a worker is doing.  `out` is what the handler returned or raised; `emits`
says whether the signal could be sent. -/
def workerStep (s : Service) (w : ℕ) (out : Except String String) (emits : Bool) :
    Option Service :=
  match s.workers[w]? with
  | none => none
  | some .top => some (s.take w)
  | some (.running i) =>
    some { s with
      workers := replaceAt s.workers w [.returned i (i.result out)]
      completed := s.completed ++ [i] }
  | some (.returned i r) =>
    some { s with
      inflight := s.inflight.erase i.key
      workers := replaceAt s.workers w [.emitting i r] }
  | some (.emitting i r) =>
    -- an emit that raises is logged, and the worker goes on with the queue
    if emits then
      some { s with
        finished := s.finished ++ [r]
        workers := replaceAt s.workers w [.rechecking i] }
    else some { s with workers := replaceAt s.workers w [.top] }
  | some (.rechecking i) =>
    some { s with
      rechecks := s.rechecks ++ if emits then [i.key] else []
      workers := replaceAt s.workers w [.top] }

end Service

/-! ## The system -/

/-- What the main thread takes from its event loop. -/
inductive Event
  | addHandler (js name : String) (startStates endStates : StateSpec)
  | removeHandler (js name : String)
  | removeAll (js : String)
  | rearm (js : String) (keys : Option (List String))
  | tick (js : String) (fault : Bool)
  | recheck (fault : Bool)
  | shutdown

inductive Act
  | event (e : Event)
  | main
  | worker (w : ℕ) (out : Except String String) (emits : Bool)
  /-- A write to the store, by any thread. -/
  | write (op : InMemoryStore.Op)

/-- An event is taken at `idle`. -/
def Service.handle (s : Service) : Event → Option Service
  | .addHandler js name startStates endStates => some (s.addHandler js name startStates endStates)
  | .removeHandler js name => some (s.removeHandler js name)
  | .removeAll js => some (s.removeAll js)
  | .rearm js keys => some (s.rearm js keys)
  | .tick js fault => some (s.tick js fault)
  | .recheck fault => s.onRecheck fault
  | .shutdown => some { s with handlers := ∅, main := .dropping }

def step (s : Service) : Act → Option Service
  | .event e => if s.main = .idle then s.handle e else none
  | .main => s.mainStep
  | .worker w out emits => s.workerStep w out emits
  | .write op => some { s with store := (s.store.perform op).2 }

def system : System Service Act where
  init s := s = {}
  step := step

end Handlers

end Lsfmgr
