import Mathlib
import Lsfmgr.Machinery.Transition
import Lsfmgr.Store.Counts
import Lsfmgr.Store.Revisions

/-!
# Manager/Delivery — what the main thread shows of the records that reach it

The workers send batches of records to the main thread, where they arrive in any order, possibly
long after the record was replaced or removed.  `_emit_jobs` is the one place they pass: it keeps
the records of the current execution and, per key, refuses a revision below the last one it let
through.  The last revisions of a key are forgotten when the key is removed, in the same step on the
main thread.

`written` and `shown` are ghosts: every record the store held or returned so far, which is what can
arrive; and what was delivered for the keys that still live.
-/

namespace Lsfmgr

open Machinery

namespace InMemoryStore

/-- All records, of every jobset. -/
def records (s : InMemoryStore) : List JobRecord := s.jobs.values.flatMap Dict.values

theorem mem_records {s : InMemoryStore} {r : JobRecord} :
    r ∈ s.records ↔ ∃ js k, s.job? js k = some r := by
  simp only [records, List.mem_flatMap, Dict.mem_values, job?, Option.bind_eq_some_iff]
  constructor
  · rintro ⟨jobs, ⟨js, hjs⟩, k, hk⟩
    exact ⟨js, k, jobs, hjs, hk⟩
  · rintro ⟨js, k, jobs, hjs, hk⟩
    exact ⟨jobs, ⟨js, hjs⟩, k, hk⟩

/-- The records a write returns to its caller. -/
def returned (s : InMemoryStore) : Op → List JobRecord
  | .addJob now r => match s.storeAddJob now r with
    | .ok (out, _) => [out]
    | .error _ => []
  | .addJobs now rs => match (s.storeAddJobs now rs).1 with
    | .ok out => out
    | .error _ => []
  | .updateJob now r => match s.updateJob now r with
    | .ok (out, _) => [out]
    | .error _ => []
  | .transition now js k ns guard fields => match s.transition now js k ns guard fields with
    | .ok (out, _) => out.toList
    | .error _ => []
  | .transitionMany now js specs => match (s.transitionMany now js specs).1 with
    | .ok out => out
    | .error _ => []
  | _ => []

end InMemoryStore

namespace Delivery

open InMemoryStore (Op Wrote)

/-! ## The delivery boundary -/

/-- `_current_records`: those that still belong to the execution the store has. -/
def currentRecords (s : InMemoryStore) (js : String) (records : List JobRecord) :
    List JobRecord :=
  let current := s.getJobsByKeys js (records.map (·.jobKey))
  records.filter fun r => (current.get? r.jobKey).any fun cur => r.sameExecution cur

/-- The loop of `_emit_jobs`: a revision below the last one of its key is dropped. -/
def acceptLoop (revisions : Dict String ℕ) : List JobRecord → List JobRecord × Dict String ℕ
  | [] => ([], revisions)
  | rec :: records =>
    if (rec.revision : ℤ) < ((revisions.get? rec.jobKey).map Int.ofNat).getD (-1) then
      acceptLoop revisions records
    else
      let (accepted, revisions) := acceptLoop (revisions.set rec.jobKey rec.revision) records
      (rec :: accepted, revisions)

/-- The last revision let through, by jobset and key. -/
abbrev Emitted := Dict String (Dict String ℕ)

/-- `_emit_jobs`: what is handed on to `jobs_updated`, or to the pacer. -/
def emitJobs (s : InMemoryStore) (emitted : Emitted) (js : String) (records : List JobRecord) :
    List JobRecord × Emitted :=
  let records := currentRecords s js records
  if records = [] then ([], emitted)
  else
    let (accepted, revisions) := acceptLoop ((emitted.get? js).getD ∅) records
    (accepted, emitted.set js revisions)

/-- The part of `_forget_paced` about revisions: of some keys, or of the whole jobset. -/
def forgetRevisions (emitted : Emitted) (js : String) : Option (List String) → Emitted
  | none => emitted.erase js
  | some keys =>
    let revisions := keys.foldl Dict.erase ((emitted.get? js).getD ∅)
    if revisions.keys = [] then emitted.erase js else emitted.set js revisions

/-! ## The system -/

structure State where
  store : InMemoryStore := {}
  emitted : Emitted := ∅
  written : List JobRecord := []
  shown : List JobRecord := []

inductive Act
  /-- A write of any thread that removes nothing, with whatever record or fields the caller has. -/
  | write (op : Op)
  | removeJobs (js : String) (jobKeys : List String)
  | clearJobs (js : String)
  | removeJobset (js : String)
  /-- A batch of records reaches the main thread. -/
  | emit (js : String) (records : List JobRecord)

def removes : Op → Bool
  | .deleteJobset .. | .deleteJob .. | .deleteJobs .. => true
  | _ => false

/-- The generations that fields assign. -/
def fieldGenerations (fields : List Field) : List ℕ :=
  fields.filterMap fun f => match f with
    | .generation g => some g
    | _ => none

/-- The generations that a write brings in. -/
def generations : Op → List ℕ
  | .addJob _ r => [r.generation]
  | .addJobs _ rs => rs.map (·.generation)
  | .updateJob _ r => [r.generation]
  | .transition _ _ _ _ _ fields => fieldGenerations fields
  | .transitionMany _ _ specs => specs.flatMap fun spec => fieldGenerations spec.fields
  | _ => []

/-- A removal ends the life of the keys that are gone, and forgets what was let through of them. -/
def State.remove (s : State) (store : InMemoryStore) (js : String) (keys : Option (List String)) :
    State :=
  { s with
    store
    emitted := forgetRevisions s.emitted js keys
    shown := s.shown.filter fun a => (store.job? a.jobsetId a.jobKey).isSome }

def step (s : State) : Act → Option State
  | .write op =>
    if removes op = false then
      let store := (s.store.perform op).2
      some { s with store, written := s.store.returned op ++ store.records ++ s.written }
    else none
  | .removeJobs js jobKeys =>
    let (removed, store) := s.store.storeDeleteJobs js jobKeys
    some (s.remove store js (some (removed.map (·.jobKey))))
  | .clearJobs js =>
    let (_, store) := s.store.storeDeleteJobs js ((s.store.jobs.get? js).getD ∅).keys
    some (s.remove store js none)
  | .removeJobset js => some (s.remove (s.store.storeDeleteJobset js) js none)
  | .emit js records =>
    if ∀ r ∈ records, r ∈ s.written then
      let (out, emitted) := emitJobs s.store s.emitted js records
      some { s with emitted, shown := s.shown ++ out }
    else none

def system : System State Act where
  init s := s = {}
  step := step

/-! ## Executions that do not come back -/

/-- Every generation is drawn anew. -/
def Fresh (written : List JobRecord) (gens : List ℕ) : Prop :=
  gens.Nodup ∧ ∀ g ∈ gens, ∀ r ∈ written, r.generation ≠ g

instance (written : List JobRecord) (gens : List ℕ) : Decidable (Fresh written gens) :=
  inferInstanceAs (Decidable (_ ∧ _))

/-- `update_job` with a snapshot of the execution that the store has. -/
def Keeps (store : InMemoryStore) (record : JobRecord) : Prop :=
  (store.job? record.jobsetId record.jobKey).any fun old =>
    decide (old.generation = record.generation)

instance (store : InMemoryStore) (record : JobRecord) : Decidable (Keeps store record) :=
  inferInstanceAs (Decidable (_ = true))

/-- A write stays in the execution it finds, or starts one that never was. -/
def Renews (store : InMemoryStore) (written : List JobRecord) : Op → Prop
  | .updateJob _ r => Keeps store r ∨ Fresh written [r.generation]
  | op => Fresh written (generations op)

instance decidableRenews (store : InMemoryStore) (written : List JobRecord) :
    (op : Op) → Decidable (Renews store written op)
  | .updateJob _ r => inferInstanceAs (Decidable (Keeps store r ∨ _))
  | .insertJobset .. | .updateJobset .. | .deleteJobset .. | .addJob .. |
      .addJobs .. | .deleteJob .. |
    .deleteJobs .. | .transition .. | .transitionMany .. => inferInstanceAs (Decidable (Fresh _ _))

/-- All writes of the step do; the program draws a new generation for every record it makes and
every reset. -/
def Renewing (s : State) : Act → Prop
  | .write op => Renews s.store s.written op
  | _ => True

instance decidableRenewing (s : State) : (a : Act) → Decidable (Renewing s a)
  | .write op => decidableRenews s.store s.written op
  | .removeJobs .. | .clearJobs _ | .removeJobset _ | .emit .. => .isTrue trivial

end Delivery

end Lsfmgr
