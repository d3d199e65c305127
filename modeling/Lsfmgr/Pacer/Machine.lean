import Mathlib
import Lsfmgr.Pacer.Core

/-!
# Pacer/Machine — the pacer and the slots it calls

An emission runs user slots, and a slot may call the pacer again.  A call that has emitted is a
`Frame` on the stack until its slots return; whatever happens before that happens inside of them.
The calls read a clock that never goes back and goes on while slots run.  A call that goes on after
an emission keeps the time it has read: that is the time it stamps its displays with, while the
clock may be ahead of it.
-/

namespace Lsfmgr.Pacer

open Machinery

/-- A call whose emission is running: what it does afterwards. -/
inductive Frame
  /-- `push`: `_prune` is left. -/
  | push (now : ℚ)
  /-- `_drain`: these batches are left; `stop` follows a `flush`. -/
  | drain (flush : Bool) (now : ℚ) (batches : List (String × List Key))

def Frame.now : Frame → ℚ
  | .push now => now
  | .drain _ now _ => now

/-- One call of `emit_fn`. -/
structure Emission where
  /-- The time the emitting call read when it began. -/
  read : ℚ
  /-- The clock when the slots are called. -/
  clock : ℚ
  jobsetId : String
  records : List JobRecord
  deriving DecidableEq

/-- The pacer in its process.  `emissions`, and what was pushed and emitted for a key since its last
`forget` (emitted with the time that call had read), are histories that are not read; `stopping` and
`stopped` say that `stop` was called, and that it has flushed the queue. -/
structure State where
  pacer : StatePacer
  clock : ℚ
  stack : List Frame := []
  emissions : List Emission := []
  pushed : Key → List JobRecord := fun _ => []
  emitted : Key → List (ℚ × JobRecord) := fun _ => []
  stopping : Bool := false
  stopped : Bool := false

inductive Act
  | push (elapsed : NNRat) (jobsetId : String) (records : List JobRecord)
  | forget (jobsetId : String) (jobKeys : Option (List String))
  /-- The timer, or any other drain. -/
  | drain (elapsed : NNRat)
  | stop (elapsed : NNRat)
  /-- The slots of the innermost emission return. -/
  | resume (elapsed : NNRat)

/-- The records of a list that are the key's. -/
def recordsOf (key : Key) (jobsetId : String) (records : List JobRecord) : List JobRecord :=
  records.filter fun record => (jobsetId, record.jobKey) = key

namespace State

/-- `_safe_emit`: the slots run, and `frame` is what the caller has left to do. -/
def emit (s : State) (now : ℚ) (jobsetId : String) (records : List JobRecord)
    (frame : Frame) : State :=
  { s with
    stack := frame :: s.stack
    emissions := s.emissions ++ [{ read := now, clock := s.clock, jobsetId, records }]
    emitted := fun key =>
      s.emitted key ++ (recordsOf key jobsetId records).map fun record => (now, record) }

/-- `_drain`, with these batches left. -/
def drainFrom (s : State) (flush : Bool) (now : ℚ) : List (String × List Key) → State
  | [] => if flush then { s with pacer := { s.pacer with shown := ∅ }, stopped := true } else s
  | (jobsetId, keys) :: rest =>
    let (pacer, records) := s.pacer.drainKeys flush now [] keys
    let s := { s with pacer := pacer }
    if records = [] then s.drainFrom flush now rest
    else s.emit now jobsetId records (.drain flush now rest)

/-- `push`, up to its emission if there is one; `prune` is what it does in the end. -/
def push (prune : StatePacer → ℚ → StatePacer) (s : State) (now : ℚ) (jobsetId : String)
    (records : List JobRecord) : State :=
  let (pacer, due) := s.pacer.pushRecords now jobsetId [] records
  let s := { s with
    pacer := pacer
    clock := now
    pushed := fun key => s.pushed key ++ recordsOf key jobsetId records }
  if due = [] then { s with pacer := prune s.pacer now } else s.emit now jobsetId due (.push now)

/-- `forget`, with which the histories of the keys begin anew. -/
def forget (s : State) (jobsetId : String) (jobKeys : Option (List String)) : State :=
  { s with
    pacer := s.pacer.forget jobsetId jobKeys
    pushed := fun key =>
      if key.1 = jobsetId ∧ ∀ ks, jobKeys = some ks → key.2 ∈ ks then [] else s.pushed key
    emitted := fun key =>
      if key.1 = jobsetId ∧ ∀ ks, jobKeys = some ks → key.2 ∈ ks then [] else s.emitted key }

def step (prune : StatePacer → ℚ → StatePacer) (s : State) : Act → State
  | .push elapsed jobsetId records => s.push prune (s.clock + elapsed) jobsetId records
  | .forget jobsetId jobKeys => s.forget jobsetId jobKeys
  | .drain elapsed =>
    { s with clock := s.clock + elapsed }.drainFrom false (s.clock + elapsed)
    s.pacer.batches.entries
  | .stop elapsed =>
    { s with
      clock := s.clock + elapsed
      pacer := { s.pacer with dwell := 0 }
      stopping := true }.drainFrom true (s.clock + elapsed) s.pacer.batches.entries
  | .resume elapsed =>
    let s := { s with clock := s.clock + elapsed }
    match s.stack with
    | [] => s
    | .push now :: stack => { s with stack := stack, pacer := prune s.pacer now }
    | .drain flush now batches :: stack => { s with stack := stack }.drainFrom flush now batches

end State

/-- A pacer at the beginning. -/
def initial (dwell start : ℚ) : State := { pacer := { dwell := dwell }, clock := start }

/-- A run, with what a push does in the end. -/
def runWith (prune : StatePacer → ℚ → StatePacer) (dwell start : ℚ) (acts : List Act) : State :=
  acts.foldl (State.step prune) (initial dwell start)

/-- A run of the pacer. -/
def run (dwell start : ℚ) (acts : List Act) : State :=
  runWith (StatePacer.prune pruneAt) dwell start acts

/-- What holds at first and is kept by every step holds after every run. -/
theorem runWith_induction {prune : StatePacer → ℚ → StatePacer} {dwell start : ℚ} {I : State → Prop}
    (hinit : I (initial dwell start)) (hstep : ∀ s a, I s → I (s.step prune a)) (acts : List Act) :
    I (runWith prune dwell start acts) := by
  induction acts using List.reverseRecOn with
  | nil => exact hinit
  | append_singleton acts a ih =>
    rw [runWith, List.foldl_append]
    exact hstep _ a ih

end Lsfmgr.Pacer
