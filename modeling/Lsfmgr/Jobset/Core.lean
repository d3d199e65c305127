import Mathlib
import Lsfmgr.Machinery.Prog
import Lsfmgr.Store.Counts

/-!
# Jobset/Core — the operations of `JobSetManager` on the store

Creating, editing and deleting jobsets and their jobs, and `intended_count` beside them.  An
operation is a `Prog`: a sequence of store calls that may raise.  The manager's operations exclude
one another, but the worker threads do not wait for them: before every store call come the
transitions that the workers made since the last one.
-/

namespace Lsfmgr

open Machinery

/-- What an operation of the manager raises. -/
inductive ManagerError
  | store (e : StoreError)
  /-- `ValueError`: the record belongs to another jobset. -/
  | wrongJobset (given jobsetId jobKey : String)
  | blankKey (jobKey : String)
  | repeatedKey (jobKey : String)
  | negativeCount (intendedCount : ℤ)
  | existingName (jobsetId jobKey : String)
  | unknownPolicy (policy : String)
  | existingKey (jobKey : String)
  | noTarget
  | jobNotFound (jobsetId jobKey : String)
  /-- `ValueError`: the job id has array elements only. -/
  | onlyElements (jobId : ℤ)
  | editNotAllowed (policy jobsetId : String) (jobKeys : List String)
  | removeNotAllowed (what jobsetId : String) (jobKeys : List String)
  | removeJobsetNotAllowed (jobsetId : String) (jobKeys : List String)
  deriving DecidableEq, Repr

namespace InMemoryStore

def countJobs (s : InMemoryStore) (js : String) : Except StoreError ℕ :=
  (s.getJobset js).bind fun _ =>
    match s.jobs.get? js with
    | some jobs => .ok jobs.keys.length
    | none => .error .keyError

end InMemoryStore

namespace Jobset

/-! ## Store calls with workers in between -/

/-- A write of a worker thread, with any arguments. -/
inductive WorkerWrite
  | transition (now : Time) (jobsetId jobKey : String) (newState : Option JobState)
      (guard : Option Guard) (fields : List Field)
  | transitionMany (now : Time) (jobsetId : String) (specs : List TransitionSpec)

def WorkerWrite.op : WorkerWrite → InMemoryStore.Op
  | transition now js k ns guard fields => .transition now js k ns guard fields
  | transitionMany now js specs => .transitionMany now js specs

def workers (s : InMemoryStore) (writes : List WorkerWrite) : InMemoryStore :=
  writes.foldl (fun s w => (s.perform w.op).2) s

/-- The store, and the worker writes that come before each of the next calls. -/
structure World where
  store : InMemoryStore
  schedule : List (List WorkerWrite) := []

abbrev Manager (α : Type) : Type := Prog World ManagerError α

/-- One call of the store, atomic under its lock. -/
def call {α : Type} (f : InMemoryStore → Except StoreError α × InMemoryStore) : Manager α :=
  fun w =>
    let (out, s) := f (workers w.store (w.schedule.headD []))
    (out.mapError .store, { store := s, schedule := w.schedule.tail })

def query {α : Type} (f : InMemoryStore → Except StoreError α) : Manager α :=
  call fun s => (f s, s)

/-- A single-item write: the new store on success only. -/
def update {α : Type} (f : InMemoryStore → Except StoreError (α × InMemoryStore)) : Manager α :=
  call fun s =>
    match f s with
    | .ok (a, s') => (.ok a, s')
    | .error e => (.error e, s)

/-! ## Checks -/

/-- `str.isspace` of one character. -/
def isSpace (c : Char) : Bool :=
  let n := c.toNat
  (9 ≤ n && n ≤ 13) || (28 ≤ n && n ≤ 32) || n = 0x85 || n = 0xa0 || n = 0x1680 ||
    (0x2000 ≤ n && n ≤ 0x200a) || n = 0x2028 || n = 0x2029 || n = 0x202f || n = 0x205f || n = 0x3000

/-- `not key.strip()` -/
def isBlank (key : String) : Bool := key.toList.all isSpace

/-- `_check_records`; `seen` are the keys of the batch so far. -/
def checkRecords (jobsetId : String) : List String → List JobRecord → Except ManagerError Unit
  | _, [] => .ok ()
  | seen, rec :: records =>
    if rec.jobsetId ≠ jobsetId then .error (.wrongJobset rec.jobsetId jobsetId rec.jobKey)
    else if isBlank rec.jobKey then .error (.blankKey rec.jobKey)
    else if rec.jobKey ∈ seen then .error (.repeatedKey rec.jobKey)
    else checkRecords jobsetId (rec.jobKey :: seen) records

/-! ## Creation -/

/-- `generated` is what `generate_jobset_id` draws when no id is given. -/
def localCreateJobset (now : Time) (generated : String) (intendedCount : ℤ) (label : String)
    (tags : List String) (jobsetId : Option String) : Manager JobSetRecord :=
  if intendedCount < 0 then .raise (.negativeCount intendedCount)
  else
    let jsid := match jobsetId with
      | some id => if id = "" then generated else id
      | none => generated
    update fun s => s.storeInsertJobset now
      { jobsetId := jsid, intendedCount, label, tags, createdAt := some now }

/-- Read the count and the number of records, and write the count when the two are `stale`. -/
def recount (jobsetId : String) (stale : ℤ → ℕ → Bool) : Manager Unit := do
  let js ← query fun s => s.getJobset jobsetId
  let n ← query fun s => s.countJobs jobsetId
  if stale js.intendedCount n then do
    let _ ← update fun s => s.updateJobset { js with intendedCount := n }
    pure ()
  else pure ()

/-- The end of `local_create_jobs`: the count is raised to the number of records, never lowered, so
that an empty jobset keeps the count it was created with. -/
def growIntendedCount (jobsetId : String) : Manager Unit :=
  recount jobsetId fun intended n => intended < n

def localCreateJobs (now : Time) (jobsetId : String) (records : List JobRecord) :
    Manager (List JobRecord) :=
  if records = [] then pure []
  else do
    let _ ← query fun s => s.getJobset jobsetId
    .ofExcept (checkRecords jobsetId [] records)
    let existing ← query fun s => .ok (s.getJobsByKeys jobsetId (records.map (·.jobKey)))
    match records.find? fun rec => rec.jobKey ∈ existing.keys with
    | some rec => .raise (.existingName jobsetId rec.jobKey)
    | none => do
      let out ← call fun s => s.storeAddJobs now records
      growIntendedCount jobsetId
      pure out

/-! ## Editing -/

/-- What to do with a job key that exists, or does not. -/
inductive Policy
  | add
  | replace
  | upsert
  deriving DecidableEq, Repr

def Policy.name : Policy → String
  | add => "add"
  | replace => "replace"
  | upsert => "upsert"

def Policy.ofName? (name : String) : Option Policy :=
  [add, replace, upsert].find? fun p => p.name = name

/-- Pair every record with the one it replaces. -/
def editPlan (jobsetId : String) (policy : Policy) (byKey : Dict String JobRecord) :
    List JobRecord → Except ManagerError (List (JobRecord × Option JobRecord))
  | [] => .ok []
  | rec :: records =>
    let old := byKey.get? rec.jobKey
    if policy = .add ∧ old.isSome then .error (.existingKey rec.jobKey)
    else if policy = .replace ∧ old = none then .error (.jobNotFound jobsetId rec.jobKey)
    else (editPlan jobsetId policy byKey records).map ((rec, old) :: ·)

/-- The keys of the records that a guard finds active. -/
def activeKeys (records : List JobRecord) : List String :=
  (records.filter fun r => !r.state.isInactive).map (·.jobKey)

/-- `_sync_intended_count`: the count becomes the number of records. -/
def syncIntendedCount (jobsetId : String) : Manager Unit :=
  recount jobsetId fun intended n => intended ≠ n

/-- A replacement is written in place, which keeps the order of the rows. -/
def editOne (now : Time) : JobRecord × Option JobRecord → Manager JobRecord
  | (rec, some _) => update fun s => s.updateJob now rec
  | (rec, none) => update fun s => s.storeAddJob now rec

def localEditJobs (now : Time) (jobsetId : String) (records : List JobRecord) (policy : String)
    (force : Bool) : Manager (List JobRecord) :=
  match Policy.ofName? policy with
  | none => .raise (.unknownPolicy policy)
  | some p => do
    let _ ← query fun s => s.getJobset jobsetId
    .ofExcept (checkRecords jobsetId [] records)
    let byKey ← query fun s => .ok (s.getJobsByKeys jobsetId (records.map (·.jobKey)))
    let plan ← .ofExcept (editPlan jobsetId p byKey records)
    let busy := activeKeys (plan.filterMap Prod.snd)
    if busy ≠ [] ∧ force = false then .raise (.editNotAllowed policy jobsetId busy)
    else do
      let changed ← Prog.each (editOne now) plan
      syncIntendedCount jobsetId
      pure changed

/-! ## Deletion -/

/-- `_delete_jobs`: the body that removing some jobs and removing all of them share. -/
def deleteJobs (jobsetId : String) (targets : List JobRecord) (force : Bool) (what : String) :
    Manager (List JobRecord) :=
  if activeKeys targets ≠ [] ∧ force = false then
    .raise (.removeNotAllowed what jobsetId (activeKeys targets))
  else do
    let removed ← call fun s =>
      let (rs, s') := s.storeDeleteJobs jobsetId (targets.map (·.jobKey))
      (.ok rs, s')
    syncIntendedCount jobsetId
    pure removed

/-- Every key under the lock again; the first that is gone raises. -/
def findTargets (jobsetId : String) (byKey : Dict String JobRecord) :
    List String → Except ManagerError (List JobRecord)
  | [] => .ok []
  | k :: ks =>
    match byKey.get? k with
    | none => .error (.jobNotFound jobsetId k)
    | some rec => (findTargets jobsetId byKey ks).map (rec :: ·)

def localRemoveJobs (jobsetId : String) (jobKeys : List String) (force : Bool) :
    Manager (List JobRecord) :=
  if jobKeys = [] then .raise .noTarget
  else do
    let _ ← query fun s => s.getJobset jobsetId
    let byKey ← query fun s => .ok (s.getJobsByKeys jobsetId jobKeys)
    let targets ← .ofExcept (findTargets jobsetId byKey jobKeys)
    deleteJobs jobsetId targets force "remove_jobs"

def localClearJobs (jobsetId : String) (force : Bool) : Manager (List JobRecord) := do
  let jobs ← query fun s => s.getJobs jobsetId
  deleteJobs jobsetId jobs force "clear_jobs"

/-! ## Loss -/

/-- `_still`: the record is as the snapshot has it, and still without a job id. -/
def still (rec cur : JobRecord) : Bool :=
  cur.sameExecution rec && cur.jobId = none && cur.state = rec.state

def lostSpec (rec : JobRecord) : TransitionSpec where
  jobKey := rec.jobKey
  newState := some .lost
  guard := Guard.of (still rec)
  fields := [.failReason (some (match rec.failReason with
    | some why => if why = "" then "NO_JOBID_PARSED" else why
    | none => "NO_JOBID_PARSED"))]

/-- A submission that was tried and has no job id cannot be found again: it is lost. -/
def detectLost (now : Time) (jobsetId : String) : Manager (List JobRecord) := do
  let _ ← query fun s => s.getJobset jobsetId
  let records ← query fun s => s.getJobs jobsetId
  let candidates := records.filter fun r => r.jobId = none && r.state = .submitting
  if candidates = [] then pure []
  else call fun s => s.transitionMany now jobsetId (candidates.map lostSpec)

/-! ## The jobset itself -/

def localRemoveJobset (jobsetId : String) (force : Bool) : Manager JobSetRecord := do
  let js ← query fun s => s.getJobset jobsetId
  let records ← query fun s => s.getJobs jobsetId
  let notTerminal := (records.filter fun r => !r.state.isTerminal).map (·.jobKey)
  if notTerminal ≠ [] ∧ force = false then .raise (.removeJobsetNotAllowed jobsetId notTerminal)
  else do
    call fun s => (.ok (), s.storeDeleteJobset jobsetId)
    pure js

/-! ## Runs -/

/-- An operation of the manager, with its arguments. -/
inductive CoreOp
  | createJobset (now : Time) (generated : String) (intendedCount : ℤ) (label : String)
      (tags : List String) (jobsetId : Option String)
  | createJobs (now : Time) (jobsetId : String) (records : List JobRecord)
  | editJobs (now : Time) (jobsetId : String) (records : List JobRecord) (policy : String)
      (force : Bool)
  | removeJobs (jobsetId : String) (jobKeys : List String) (force : Bool)
  | clearJobs (jobsetId : String) (force : Bool)
  | detectLost (now : Time) (jobsetId : String)
  | removeJobset (jobsetId : String) (force : Bool)

/-- The operation as a program; what it returns does not matter for the store. -/
def CoreOp.prog : CoreOp → Manager Unit
  | createJobset now generated n label tags id => do
    let _ ← localCreateJobset now generated n label tags id; pure ()
  | createJobs now js records => do let _ ← localCreateJobs now js records; pure ()
  | editJobs now js records policy force => do
    let _ ← localEditJobs now js records policy force; pure ()
  | removeJobs js ks force => do let _ ← localRemoveJobs js ks force; pure ()
  | clearJobs js force => do let _ ← localClearJobs js force; pure ()
  | detectLost now js => do let _ ← Jobset.detectLost now js; pure ()
  | removeJobset js force => do let _ ← localRemoveJobset js force; pure ()

/-- What happens to the store: a worker writes, or the manager runs an operation among worker writes
that come between its store calls. -/
inductive Event
  | worker (w : WorkerWrite)
  | manager (op : CoreOp) (schedule : List (List WorkerWrite))

def after (s : InMemoryStore) : Event → InMemoryStore
  | .worker w => (s.perform w.op).2
  | .manager op schedule => (op.prog { store := s, schedule }).2.store

/-- The store after a sequence of events, starting empty. -/
def afterEvents (events : List Event) : InMemoryStore := events.foldl after {}

end Jobset

end Lsfmgr
