import Mathlib
import Lsfmgr.Handlers.Exclusive
import Lsfmgr.Jobset.Core
import Lsfmgr.Manager.Generations
import Lsfmgr.Submit.Task

/-!
# Handlers/Rearm — when a job becomes pending again under its handlers

A new execution of a job starts in the store: a submit worker resets the record, or the main thread
edits the list of jobs.  Its handlers learn of it by `rearm`, and that is always the main thread's
work.  After an edit or a removal it follows at once; after a reset it waits for the signal
`records_reset`, which the worker sends when all records of the cycle are reset, and which is
honoured only if its token is still the one staged for the jobset.

Whatever else happens to the store is a `write` by any thread: it removes nothing, and every
execution it starts is new.  `drawn` is a ghost: the generations that were ever brought in.
-/

namespace Lsfmgr

namespace Handlers

open Machinery

namespace Rearm

/-- A submit cycle between its start and its `records_reset` or `gate_rejected`. -/
structure Launch where
  jobsetId : String
  token : ℕ
  reset : List JobRecord := []

/-- A signal of a submit worker that has not reached the main thread. -/
inductive Note
  | recordsReset (jobsetId : String) (token : ℕ) (records : List JobRecord)
  | gateRejected (jobsetId : String) (token : ℕ)

/-- What the main thread has to finish before it takes the next event. -/
inductive Duty
  | none
  /-- In `_edit_jobs`: the records to write, with what each replaces, and the keys written. -/
  | editing (jobsetId : String) (now : Time) (todo : List (JobRecord × Option JobRecord))
      (changed : List String)
  /-- Before `rearm`. -/
  | rearming (jobsetId : String) (keys : Option (List String))

/-- `arms` is the token of `_pending_arm`. -/
structure State where
  svc : Service := {}
  arms : Dict String ℕ := ∅
  tokens : ℕ := 0
  launches : List Launch := []
  notes : List Note := []
  duty : Duty := .none
  drawn : List ℕ := []

namespace State

def store (s : State) : InMemoryStore := s.svc.store

def setStore (s : State) (store : InMemoryStore) : State := { s with svc := { s.svc with store } }

/-- The main thread is in its event loop. -/
def free (s : State) : Bool := s.svc.main = .idle ∧ s.duty matches .none

/-- `stage`, and the start of the cycle. -/
def submit (s : State) (js : String) : State :=
  { s with
    arms := s.arms.set js s.tokens
    tokens := s.tokens + 1
    launches := s.launches ++ [⟨js, s.tokens, []⟩] }

/-- `_reset_records`, for one key; a record that is gone is passed over. -/
def reset (s : State) (i : ℕ) (now : Time) (jobKey : String) (generation : ℕ) (command : String) :
    Option State :=
  match s.launches[i]? with
  | none => Option.none
  | some l =>
    if generation ∈ s.drawn then Option.none
    else
      match s.store.transition now l.jobsetId jobKey (some .submitting) Option.none
          (Submit.resetFields generation command) with
      | .ok (some rec, store) =>
        some { s.setStore store with
          drawn := generation :: s.drawn
          launches := s.launches.set i { l with reset := l.reset ++ [rec] } }
      | _ => some s

/-- The cycle sends what it has reset, or that it goes no further. -/
def send (s : State) (i : ℕ) (armed : Bool) : Option State :=
  (s.launches[i]?).map fun l =>
    { s with
      launches := s.launches.eraseIdx i
      notes := s.notes ++ [if armed then .recordsReset l.jobsetId l.token l.reset
        else .gateRejected l.jobsetId l.token] }

/-- `_on_records_reset` up to its rearm, and `_on_gate_rejected`. -/
def receive (s : State) : Note → State
  | .recordsReset js token records =>
    if s.arms.get? js = some token then
      let s := { s with arms := s.arms.erase js }
      match Delivery.currentRecords s.store js records with
      | [] => s
      | records => { s with duty := .rearming js (some (records.map (·.jobKey))) }
    else s
  | .gateRejected js token =>
    if s.arms.get? js = some token then { s with arms := s.arms.erase js } else s

/-- The checks of an edit, before it writes. -/
def editPlan (s : State) (js : String) (records : List JobRecord) (policy : Jobset.Policy)
    (force : Bool) : Option (List (JobRecord × Option JobRecord)) :=
  match s.store.getJobset js, Jobset.checkRecords js [] records,
      Jobset.editPlan js policy (s.store.getJobsByKeys js (records.map (·.jobKey))) records with
  | .ok _, .ok _, .ok plan =>
    if Jobset.activeKeys (plan.filterMap Prod.snd) ≠ [] ∧ force = false then Option.none
    else some plan
  | _, _, _ => Option.none

/-- The next piece of what the main thread has to finish.  An edit that raises half way leaves what
it has written, without a rearm. -/
def finishDuty (s : State) : Option State :=
  match s.duty with
  | .none => Option.none
  | .editing js _ [] changed =>
    some { s with duty := if changed = [] then .none else .rearming js (some changed) }
  | .editing js now ((rec, old) :: todo) changed =>
    if rec.generation ∈ s.drawn then Option.none
    else
      match if old.isSome then s.store.updateJob now rec else s.store.storeAddJob now rec with
      | .error _ => some { s with duty := .none }
      | .ok (out, store) =>
        some { s.setStore store with
          drawn := rec.generation :: s.drawn
          duty := .editing js now todo (changed ++ [out.jobKey]) }
  | .rearming js keys => some { s with svc := s.svc.rearm js keys, duty := .none }

end State

inductive Act
  /-- A step of the service, which starts no execution. -/
  | service (a : Handlers.Act)
  | write (op : InMemoryStore.Op)
  | submit (js : String)
  | reset (i : ℕ) (now : Time) (jobKey : String) (generation : ℕ) (command : String)
  | send (i : ℕ) (armed : Bool)
  | receive (i : ℕ)
  | edit (js : String) (now : Time) (records : List JobRecord) (policy : Jobset.Policy)
      (force : Bool)
  | removeJobs (js : String) (jobKeys : List String)
  | clearJobs (js : String)
  | removeJobset (js : String)
  | duty

/-- The steps of the service that are the service's own: a rearm and a write have their place
above. -/
def own : Handlers.Act → Bool
  | .event (.rearm ..) | .write _ => false
  | _ => true

def isEvent : Handlers.Act → Bool
  | .event _ => true
  | _ => false

def step (s : State) : Act → Option State
  | .service a =>
    if own a ∧ (isEvent a → s.free) then (Handlers.step s.svc a).map fun svc => { s with svc }
    else none
  | .write op =>
    let gens := Delivery.generations op
    if Delivery.removes op = false ∧ gens.Nodup ∧ ∀ g ∈ gens, g ∉ s.drawn then
      some { s.setStore (s.store.perform op).2 with drawn := gens ++ s.drawn }
    else none
  | .submit js => if s.free then some (s.submit js) else none
  | .reset i now jobKey generation command => s.reset i now jobKey generation command
  | .send i armed => s.send i armed
  | .receive i =>
    if s.free then (s.notes[i]?).map fun n => { s with notes := s.notes.eraseIdx i }.receive n
    else none
  | .edit js now records policy force =>
    if s.free then
      match s.editPlan js records policy force with
      | none => some s
      | some plan => some { s with duty := .editing js now plan [] }
    else none
  | .removeJobs js jobKeys =>
    if s.free then
      let (removed, store) := s.store.storeDeleteJobs js jobKeys
      some { s.setStore store with duty := .rearming js (some (removed.map (·.jobKey))) }
    else none
  | .clearJobs js =>
    if s.free then
      let (_, store) := s.store.storeDeleteJobs js ((s.store.jobs.get? js).getD ∅).keys
      some { s.setStore store with duty := .rearming js none }
    else none
  | .removeJobset js =>
    if s.free then
      some { s with
        svc := { s.svc with store := s.store.storeDeleteJobset js }.removeAll js
        arms := s.arms.erase js
        duty := .rearming js none }
    else none
  | .duty => if s.svc.main = .idle then s.finishDuty else none

def system : System State Act where
  init s := s = {}
  step := step

end Rearm

end Handlers

end Lsfmgr
