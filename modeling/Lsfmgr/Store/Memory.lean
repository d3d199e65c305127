import Mathlib
import Lsfmgr.Machinery.Dict
import Lsfmgr.Machinery.Prog
import Lsfmgr.Store.States

/-!
# Store/Memory — the in-memory record store

Three tables — jobsets, their records and the per-state counts — written only through `putRec` and
`dropRec`.  A single-item operation raises before it writes, so it returns `Except StoreError` with
the new store on success only.  A batch operation may raise half way, so it returns the store beside
its outcome.

The clock is an argument `now` of every operation that reads it.
-/

namespace Lsfmgr

open Machinery

/-- The exceptions a store operation can raise. -/
inductive StoreError
  | jobNotFound (jobsetId jobKey : String)
  | jobsetNotFound (jobsetId : String)
  | duplicateJobset (jobsetId : String)
  | duplicateKey (jobsetId jobKey : String)
  /-- `ValueError`: a transition may not change this key field. -/
  | keyField (name : String)
  /-- `TypeError`: the name is unknown, or the store passes it itself. -/
  | badField (name : String)
  | keyError
  /-- Raised by the caller's guard. -/
  | guardRaised (what : String)
  deriving DecidableEq, Repr

/-- `RECORD_GONE`: the record or its jobset was deleted concurrently. -/
def StoreError.isRecordGone : StoreError → Bool
  | jobNotFound .. | jobsetNotFound .. => true
  | _ => false

/-! ## Keyword fields -/

/-- One `name=value` of a transition's `**fields`. -/
inductive Field
  | jobId (v : Option ℕ)
  | arrayIndex (v : Option ℕ)
  | failReason (v : Option String)
  | failMessage (v : Option String)
  | retryCount (v : ℕ)
  | exitCode (v : Option ℤ)
  | killed (v : Bool)
  | submitTime (v : Option Time)
  | command (v : String)
  | runTimeS (v : Option ℤ)
  | startTime (v : Option Time)
  | finishTime (v : Option Time)
  | sourceCluster (v : Option String)
  | forwardCluster (v : Option String)
  | submitCwd (v : Option String)
  | userData (v : Option String)
  | generation (v : ℕ)
  | jobsetId (v : String)
  | jobKey (v : String)
  /-- A name the store passes itself: `state`, `updated_at`, `_revision`, `record`, `now`. -/
  | reserved (name : String)
  /-- A name that is not a field of the record. -/
  | unknown (name : String)
  deriving DecidableEq, Repr

namespace Field

/-- The record with the field set; the store refuses the last two cases before it gets here. -/
def put : Field → JobRecord → JobRecord
  | jobId v, r => { r with jobId := v }
  | arrayIndex v, r => { r with arrayIndex := v }
  | failReason v, r => { r with failReason := v }
  | failMessage v, r => { r with failMessage := v }
  | retryCount v, r => { r with retryCount := v }
  | exitCode v, r => { r with exitCode := v }
  | killed v, r => { r with killed := v }
  | submitTime v, r => { r with submitTime := v }
  | command v, r => { r with command := v }
  | runTimeS v, r => { r with runTimeS := v }
  | startTime v, r => { r with startTime := v }
  | finishTime v, r => { r with finishTime := v }
  | sourceCluster v, r => { r with sourceCluster := v }
  | forwardCluster v, r => { r with forwardCluster := v }
  | submitCwd v, r => { r with submitCwd := v }
  | userData v, r => { r with userData := v }
  | generation v, r => { r with generation := v }
  | jobsetId v, r => { r with jobsetId := v }
  | jobKey v, r => { r with jobKey := v }
  | reserved _, r => r
  | unknown _, r => r

/-- The name, when `replace` cannot take the field. -/
def badName? : Field → Option String
  | reserved n | unknown n => some n
  | _ => none

/-- The name, when it is one of the two key fields. -/
def keyName? : Field → Option String
  | jobKey _ => some "job_key"
  | jobsetId _ => some "jobset_id"
  | _ => none

/-- A field a transition accepts. -/
def Plain (f : Field) : Prop := f.badName? = none ∧ f.keyName? = none

instance : DecidablePred Plain := fun _ => inferInstanceAs (Decidable (_ ∧ _))

theorem Plain.put_jobsetId {f : Field} (h : f.Plain) (r : JobRecord) :
    (f.put r).jobsetId = r.jobsetId := by
  cases f <;> first | rfl | exact absurd h (by simp [Plain, keyName?])

theorem Plain.put_jobKey {f : Field} (h : f.Plain) (r : JobRecord) :
    (f.put r).jobKey = r.jobKey := by
  cases f <;> first | rfl | exact absurd h (by simp [Plain, keyName?])

end Field

/-- `_reject_key_fields` -/
def rejectKeyFields (fields : List Field) : Except StoreError Unit :=
  match fields.findSome? Field.keyName? with
  | some n => .error (.keyField n)
  | none => .ok ()

/-- The record `_replace_rec` stores: the fields set, stamped with the time and the next
revision. -/
def JobRecord.rewrite (r : JobRecord) (now : Time) (state : JobState) (revision : ℕ)
    (fields : List Field) : JobRecord :=
  { fields.foldl (fun r f => f.put r) r with
    state := state, updatedAt := some now, revision := revision + 1 }

theorem foldl_put_ids {fields : List Field} (hf : ∀ f ∈ fields, f.Plain) (r : JobRecord) :
    (fields.foldl (fun r f => f.put r) r).jobsetId = r.jobsetId ∧
      (fields.foldl (fun r f => f.put r) r).jobKey = r.jobKey := by
  induction fields generalizing r with
  | nil => exact ⟨rfl, rfl⟩
  | cons f fs ih =>
    rw [List.foldl_cons]
    obtain ⟨h₁, h₂⟩ := ih (fun g hg => hf g (List.mem_cons_of_mem _ hg)) (f.put r)
    have hp := hf f List.mem_cons_self
    exact ⟨h₁.trans (hp.put_jobsetId r), h₂.trans (hp.put_jobKey r)⟩

/-- A guard may raise. -/
abbrev Guard := JobRecord → Except StoreError Bool

/-- A guard that cannot raise. -/
def Guard.of (p : JobRecord → Bool) : Option Guard := some fun r => .ok (p r)

/-- One input of `transition_many`: key, new state (`none`: keep it), guard, fields. -/
structure TransitionSpec where
  jobKey : String
  newState : Option JobState
  guard : Option Guard := none
  fields : List Field := []

structure InMemoryStore where
  jobsets : Dict String JobSetRecord := ∅
  /-- Jobset id to the records by job key. -/
  jobs : Dict String (Dict String JobRecord) := ∅
  /-- Jobset id to the number of records in each state; a state without records has no entry. -/
  counts : Dict String (Dict JobState ℕ) := ∅
  deriving DecidableEq

namespace InMemoryStore

/-- The record at a key, if there is one. -/
def job? (s : InMemoryStore) (jobsetId jobKey : String) : Option JobRecord :=
  (s.jobs.get? jobsetId).bind fun jobs => jobs.get? jobKey

/-! ## Jobsets -/

def storeInsertJobset (s : InMemoryStore) (now : Time) (record : JobSetRecord) :
    Except StoreError (JobSetRecord × InMemoryStore) :=
  if record.jobsetId ∈ s.jobsets.keys then .error (.duplicateJobset record.jobsetId)
  else
    let record := { record with createdAt := some (record.createdAt.getD now) }
    .ok (record,
      { jobsets := s.jobsets.set record.jobsetId record
        jobs := s.jobs.set record.jobsetId ((s.jobs.get? record.jobsetId).getD ∅)
        counts := s.counts.set record.jobsetId ((s.counts.get? record.jobsetId).getD ∅) })

def «exists» (s : InMemoryStore) (jobsetId : String) : Bool := jobsetId ∈ s.jobsets.keys

def getJobset (s : InMemoryStore) (jobsetId : String) : Except StoreError JobSetRecord :=
  match s.jobsets.get? jobsetId with
  | some js => .ok js
  | none => .error (.jobsetNotFound jobsetId)

def updateJobset (s : InMemoryStore) (record : JobSetRecord) :
    Except StoreError (JobSetRecord × InMemoryStore) :=
  if record.jobsetId ∈ s.jobsets.keys then
    .ok (record, { s with jobsets := s.jobsets.set record.jobsetId record })
  else .error (.jobsetNotFound record.jobsetId)

def storeDeleteJobset (s : InMemoryStore) (jobsetId : String) : InMemoryStore :=
  { jobsets := s.jobsets.erase jobsetId
    jobs := s.jobs.erase jobsetId
    counts := s.counts.erase jobsetId }

def listJobsets (s : InMemoryStore) : List JobSetRecord := s.jobsets.values

/-! ## The write funnel -/

def countDel (s : InMemoryStore) (jobsetId : String) (state : JobState) : InMemoryStore :=
  match s.counts.get? jobsetId with
  | none => s
  | some counts =>
    if counts.keys = [] then s
    else
      let n := (counts.get? state).getD 0 - 1
      { s with counts :=
          s.counts.set jobsetId (if 0 < n then counts.set state n else counts.erase state) }

def putRec (s : InMemoryStore) (record : JobRecord) : Except StoreError InMemoryStore :=
  match s.jobs.get? record.jobsetId with
  | none => .error .keyError
  | some jobs =>
    let s := match jobs.get? record.jobKey with
      | some old => s.countDel record.jobsetId old.state
      | none => s
    let counts := (s.counts.get? record.jobsetId).getD ∅
    let n := (counts.get? record.state).getD 0 + 1
    .ok { s with
      jobs := s.jobs.set record.jobsetId (jobs.set record.jobKey record)
      counts := s.counts.set record.jobsetId (counts.set record.state n) }

def dropRec (s : InMemoryStore) (jobsetId jobKey : String) : Option JobRecord × InMemoryStore :=
  match s.jobs.get? jobsetId with
  | none => (none, s)
  | some jobs =>
    match jobs.get? jobKey with
    | none => (none, s)
    | some old =>
      let s := s.countDel jobsetId old.state
      (some old, { s with jobs := s.jobs.set jobsetId (jobs.erase jobKey) })

/-! ## Records -/

def storeAddJob (s : InMemoryStore) (now : Time) (record : JobRecord) :
    Except StoreError (JobRecord × InMemoryStore) :=
  if record.jobsetId ∈ s.jobsets.keys then
    match s.jobs.get? record.jobsetId with
    | none => .error .keyError
    | some jobs =>
      if record.jobKey ∈ jobs.keys then
        .error (.duplicateKey record.jobsetId record.jobKey)
      else
        let record := { record with updatedAt := some (record.updatedAt.getD now) }
        (s.putRec record).map fun s => (record, s)
  else .error (.jobsetNotFound record.jobsetId)

/-- Membership of a key in a list of keys, decided in one way in all modules. -/
instance decidableMemPairs (p : String × String) (ps : List (String × String)) : Decidable (p ∈ ps) :=
  inferInstance

/-- The checks of `store_add_jobs`, all of them before the first write; `seen` are the keys of the
batch so far. -/
def checkNewJobs (s : InMemoryStore) :
    List (String × String) → List JobRecord → Except StoreError Unit
  | _, [] => .ok ()
  | seen, record :: records =>
    if record.jobsetId ∈ s.jobsets.keys then
      match s.jobs.get? record.jobsetId with
      | none => .error .keyError
      | some jobs =>
        if (record.jobsetId, record.jobKey) ∈ seen ∨ record.jobKey ∈ jobs.keys then
          .error (.duplicateKey record.jobsetId record.jobKey)
        else s.checkNewJobs ((record.jobsetId, record.jobKey) :: seen) records
    else .error (.jobsetNotFound record.jobsetId)

/-- The writes of `store_add_jobs`. -/
def putAll (s : InMemoryStore) (now : Time) :
    List JobRecord → Except StoreError (List JobRecord) × InMemoryStore
  | [] => (.ok [], s)
  | record :: records =>
    let record := { record with updatedAt := some (record.updatedAt.getD now) }
    match s.putRec record with
    | .error e => (.error e, s)
    | .ok s =>
      let (out, s) := s.putAll now records
      (out.map (record :: ·), s)

def storeAddJobs (s : InMemoryStore) (now : Time) (records : List JobRecord) :
    Except StoreError (List JobRecord) × InMemoryStore :=
  match s.checkNewJobs [] records with
  | .error e => (.error e, s)
  | .ok () => s.putAll now records

def storeDeleteJob (s : InMemoryStore) (jobsetId jobKey : String) :
    Except StoreError (JobRecord × InMemoryStore) :=
  match s.dropRec jobsetId jobKey with
  | (some r, s) => .ok (r, s)
  | (none, _) => .error (.jobNotFound jobsetId jobKey)

def storeDeleteJobs (s : InMemoryStore) (jobsetId : String) :
    List String → List JobRecord × InMemoryStore
  | [] => ([], s)
  | key :: keys =>
    match s.dropRec jobsetId key with
    | (some r, s) =>
      let (rs, s) := s.storeDeleteJobs jobsetId keys
      (r :: rs, s)
    | (none, s) => s.storeDeleteJobs jobsetId keys

/-- The records among `jobKeys`; a missing key, or a missing jobset, is no error. -/
def getJobsByKeys (s : InMemoryStore) (jobsetId : String) (jobKeys : List String) :
    Dict String JobRecord :=
  jobKeys.foldl (fun d k => match s.job? jobsetId k with
    | some r => d.set k r
    | none => d) ∅

def getJob (s : InMemoryStore) (jobsetId jobKey : String) : Except StoreError JobRecord :=
  match s.job? jobsetId jobKey with
  | some r => .ok r
  | none => .error (.jobNotFound jobsetId jobKey)

/-- All records of the jobset in insertion order, or those in the given states. -/
def getJobs (s : InMemoryStore) (jobsetId : String) (states : Option (JobState → Bool) := none) :
    Except StoreError (List JobRecord) :=
  if jobsetId ∈ s.jobsets.keys then
    let recs := ((s.jobs.get? jobsetId).getD ∅).values
    .ok (match states with
      | some p => recs.filter fun r => p r.state
      | none => recs)
  else .error (.jobsetNotFound jobsetId)

/-- Records of any jobset that satisfy `pred`; a jobset deleted meanwhile is skipped. -/
def findJobsWhere (s : InMemoryStore) (pred : JobRecord → Bool) : List JobRecord :=
  s.listJobsets.flatMap fun js =>
    match s.getJobs js.jobsetId with
    | .ok jobs => jobs.filter pred
    | .error _ => []

def findJobs (s : InMemoryStore) (jobIds : List ℕ) : List JobRecord :=
  s.findJobsWhere fun r => r.jobId.any (· ∈ jobIds)

def findJobsByKeys (s : InMemoryStore) (jobKeys : List String) : List JobRecord :=
  s.findJobsWhere fun r => r.jobKey ∈ jobKeys

/-- `_replace_rec`: the time and revision rule of every write to an existing record.  `state` is the
`state=` its caller adds to the fields, if any. -/
def replaceRec (s : InMemoryStore) (record : JobRecord) (now : Time) (state : Option JobState)
    (fields : List Field) : Except StoreError (JobRecord × InMemoryStore) :=
  match s.job? record.jobsetId record.jobKey with
  | none => .error .keyError
  | some cur =>
    match fields.findSome? Field.badName? with
    | some n => .error (.badField n)
    | none =>
      let new := record.rewrite now (state.getD record.state) cur.revision fields
      (s.putRec new).map fun s => (new, s)

def updateJob (s : InMemoryStore) (now : Time) (record : JobRecord) :
    Except StoreError (JobRecord × InMemoryStore) :=
  match s.job? record.jobsetId record.jobKey with
  | none => .error (.jobNotFound record.jobsetId record.jobKey)
  | some _ => s.replaceRec record now none []

/-- Evaluate an optional guard; without one the write goes ahead. -/
def checkGuard (guard : Option Guard) (r : JobRecord) : Except StoreError Bool :=
  match guard with
  | some g => g r
  | none => .ok true

/-- **The compare-and-set write**: `none` when the guard refuses the current record. -/
def transition (s : InMemoryStore) (now : Time) (jobsetId jobKey : String)
    (newState : Option JobState) (guard : Option Guard) (fields : List Field) :
    Except StoreError (Option JobRecord × InMemoryStore) := do
  rejectKeyFields fields
  let old ← s.getJob jobsetId jobKey
  if ← checkGuard guard old then
    let (new, s) ← s.replaceRec old now (some (newState.getD old.state)) fields
    return (some new, s)
  else return (none, s)

/-- The body of the batch: a vanished key and a refusing guard are skipped. -/
def transitionManyImpl (s : InMemoryStore) (now : Time) (jobsetId : String) :
    List TransitionSpec → Except StoreError (List JobRecord) × InMemoryStore
  | [] => (.ok [], s)
  | spec :: specs =>
    match s.job? jobsetId spec.jobKey with
    | none => s.transitionManyImpl now jobsetId specs
    | some old =>
      match checkGuard spec.guard old with
      | .error e => (.error e, s)
      | .ok false => s.transitionManyImpl now jobsetId specs
      | .ok true =>
        match s.replaceRec old now (some (spec.newState.getD old.state)) spec.fields with
        | .error e => (.error e, s)
        | .ok (new, s) =>
          let (out, s) := s.transitionManyImpl now jobsetId specs
          (out.map (new :: ·), s)

/-- The key fields of every spec are checked before the first write. -/
def transitionMany (s : InMemoryStore) (now : Time) (jobsetId : String)
    (specs : List TransitionSpec) : Except StoreError (List JobRecord) × InMemoryStore :=
  match specs.findSome? fun spec => spec.fields.findSome? Field.keyName? with
  | some n => (.error (.keyField n), s)
  | none => s.transitionManyImpl now jobsetId specs

/-! ## Placement

What every write needs to know of the store: a record lies under its own ids. -/

/-- **Every record lies under its own jobset id and job key**, and the two tables know the same
jobsets. -/
structure Placed (s : InMemoryStore) : Prop where
  jobs_iff : ∀ js, js ∈ s.jobs.keys ↔ js ∈ s.jobsets.keys
  own : ∀ js k r, s.job? js k = some r → r.jobsetId = js ∧ r.jobKey = k

theorem placed_empty : Placed {} where
  jobs_iff _ := Iff.rfl
  own _ _ _ h := by simp [job?] at h

@[simp] theorem countDel_jobs (s : InMemoryStore) (js : String) (st : JobState) :
    (s.countDel js st).jobs = s.jobs := by
  simp only [countDel]; split <;> [rfl; (split <;> rfl)]

@[simp] theorem countDel_jobsets (s : InMemoryStore) (js : String) (st : JobState) :
    (s.countDel js st).jobsets = s.jobsets := by
  simp only [countDel]; split <;> [rfl; (split <;> rfl)]

/-- `s'` is `s` with `v` at one key, all other keys as before. -/
structure Wrote (s : InMemoryStore) (js k : String) (v : Option JobRecord) (s' : InMemoryStore) :
    Prop where
  job? : ∀ js' k', s'.job? js' k' = if js' = js ∧ k' = k then v else s.job? js' k'
  jobsets : s'.jobsets = s.jobsets
  placed : s.Placed → s'.Placed

theorem putRec_wrote {s : InMemoryStore} {r : JobRecord} (h : r.jobsetId ∈ s.jobs.keys) :
    ∃ s', s.putRec r = .ok s' ∧ Wrote s r.jobsetId r.jobKey (some r) s' := by
  obtain ⟨jobs, hjobs⟩ := Dict.mem_keys.mp h
  refine ⟨_, by rw [putRec, hjobs], ?_⟩
  have hj : ∀ s₁ : InMemoryStore, s₁ = (match jobs.get? r.jobKey with
      | some old => s.countDel r.jobsetId old.state
      | none => s) → s₁.jobs = s.jobs ∧ s₁.jobsets = s.jobsets := by
    rintro _ rfl
    split <;> simp
  obtain ⟨hj₁, hj₂⟩ := hj _ rfl
  have hread : ∀ js' k', (InMemoryStore.job?
      { jobsets := s.jobsets, counts := ∅,
        jobs := s.jobs.set r.jobsetId (jobs.set r.jobKey r) } js' k')
      = if js' = r.jobsetId ∧ k' = r.jobKey then some r else s.job? js' k' := by
    intro js' k'
    by_cases hjs : js' = r.jobsetId
    · subst hjs
      by_cases hk : k' = r.jobKey
      · simp [InMemoryStore.job?, hk]
      · simp [InMemoryStore.job?, Dict.get?_set, hk, hjobs]
    · simp [InMemoryStore.job?, Dict.get?_set, hjs]
  constructor
  · intro js' k'
    rw [← hread js' k']
    simp only [InMemoryStore.job?, hj₁]
  · exact hj₂
  · intro hp
    constructor
    · intro js'
      simp only [hj₁, hj₂, Dict.mem_keys_set]
      exact ⟨fun h' => h'.elim (fun e => e ▸ (hp.jobs_iff _).mp h) (hp.jobs_iff _).mp,
        fun h' => .inr ((hp.jobs_iff _).mpr h')⟩
    · intro js' k' r' hr'
      have := hread js' k'
      simp only [InMemoryStore.job?, hj₁] at hr' this
      rw [this] at hr'
      split at hr'
      case isTrue hc => obtain rfl := Option.some.inj hr'; exact ⟨hc.1.symm, hc.2.symm⟩
      case isFalse => exact hp.own _ _ _ hr'

/-- What a lookup by keys returns for a key it was asked for. -/
theorem get?_getJobsByKeys (s : InMemoryStore) {js : String} (ks : List String) {k : String}
    (hk : k ∈ ks) :
    (s.getJobsByKeys js ks).get? k = s.job? js k := by
  have hfold : ∀ (ks : List String) (d : Dict String JobRecord),
      (ks.foldl (fun d k => match s.job? js k with
        | some r => d.set k r
        | none => d) d).get? k
        = if k ∈ ks then (s.job? js k).or (d.get? k) else d.get? k := by
    intro ks
    induction ks with
    | nil => exact fun d => rfl
    | cons k' ks ih =>
      intro d
      rw [List.foldl_cons, ih]
      by_cases hkk : k = k'
      · subst hkk
        rcases s.job? js k with _ | r <;> simp
      · rcases s.job? js k' with _ | r <;> simp [hkk, Dict.get?_set]
  refine (hfold ks ∅).trans ?_
  rw [if_pos hk]
  exact Option.or_none

theorem mem_jobs_keys_of_job? {s : InMemoryStore} {js k : String} {r : JobRecord}
    (h : s.job? js k = some r) : js ∈ s.jobs.keys := by
  obtain ⟨jobs, hj, -⟩ := Option.bind_eq_some_iff.mp h
  exact Dict.mem_keys.mpr ⟨jobs, hj⟩

theorem findSome?_eq_none_of_plain {fields : List Field} (hf : ∀ f ∈ fields, f.Plain) :
    fields.findSome? Field.badName? = none ∧ fields.findSome? Field.keyName? = none :=
  ⟨List.findSome?_eq_none_iff.mpr fun f hm => (hf f hm).1,
    List.findSome?_eq_none_iff.mpr fun f hm => (hf f hm).2⟩

/-! ## What a write does -/

section Write

variable {s : InMemoryStore} {js k : String} {now : Time} {fields : List Field}

theorem replaceRec_wrote (now : Time) (hp : s.Placed) {cur : JobRecord} (h : s.job? js k = some cur)
    (hf : ∀ f ∈ fields, f.Plain) (st : Option JobState) :
    ∃ s', s.replaceRec cur now st fields
        = .ok (cur.rewrite now (st.getD cur.state) cur.revision fields, s') ∧
      Wrote s js k (some (cur.rewrite now (st.getD cur.state) cur.revision fields)) s' := by
  obtain ⟨hjs, hk⟩ := hp.own _ _ _ h
  set new := cur.rewrite now (st.getD cur.state) cur.revision fields with hnew
  have hids : new.jobsetId = js ∧ new.jobKey = k := by
    obtain ⟨h₁, h₂⟩ := foldl_put_ids hf cur
    exact ⟨h₁.trans hjs, h₂.trans hk⟩
  obtain ⟨s', hs', hw⟩ := putRec_wrote (s := s) (r := new) (hids.1 ▸ mem_jobs_keys_of_job? h)
  refine ⟨s', ?_, by rwa [hids.1, hids.2] at hw⟩
  rw [replaceRec, hjs, hk, h]
  simp only [(findSome?_eq_none_of_plain hf).1]
  rw [← hnew, hs']
  rfl

/-- The three outcomes of a compare-and-set write whose fields are plain. -/
inductive Transitioned (s : InMemoryStore) (js k : String) (now : Time)
    (newState : Option JobState) (p : JobRecord → Bool) (fields : List Field) :
    Except StoreError (Option JobRecord × InMemoryStore) → Prop
  | gone : s.job? js k = none → Transitioned s js k now newState p fields
      (.error (.jobNotFound js k))
  | refused {old : JobRecord} : s.job? js k = some old → p old = false →
      Transitioned s js k now newState p fields (.ok (none, s))
  | done {old : JobRecord} {s' : InMemoryStore} : s.job? js k = some old → p old = true →
      Wrote s js k (some (old.rewrite now (newState.getD old.state) old.revision fields)) s' →
      Transitioned s js k now newState p fields
        (.ok (some (old.rewrite now (newState.getD old.state) old.revision fields), s'))

/-- **What a transition can do**: raise because the record is gone, be refused by its guard, or
write the one record. -/
theorem transition_cases (js k : String) (now : Time) (fields : List Field) (hp : s.Placed)
    (hf : ∀ f ∈ fields, f.Plain) (newState : Option JobState)
    (p : JobRecord → Bool) :
    Transitioned s js k now newState p fields
      (s.transition now js k newState (Guard.of p) fields) := by
  have hk : rejectKeyFields fields = .ok () := by
    rw [rejectKeyFields, (findSome?_eq_none_of_plain hf).2]
  rcases hj : s.job? js k with _ | old
  · have : s.transition now js k newState (Guard.of p) fields = .error (.jobNotFound js k) := by
      simp [transition, hk, getJob, hj, bind, Except.bind]
    rw [this]
    exact .gone hj
  · rcases hg : p old with _ | _
    · have : s.transition now js k newState (Guard.of p) fields = .ok (none, s) := by
        simp [transition, hk, getJob, hj, bind, Except.bind, checkGuard, Guard.of, hg, pure,
          Except.pure]
      rw [this]
      exact .refused hj hg
    · obtain ⟨s', hs', hw⟩ := replaceRec_wrote now hp hj hf
        (some (newState.getD old.state))
      have : s.transition now js k newState (Guard.of p) fields = .ok (some (old.rewrite now
          (newState.getD old.state) old.revision fields), s') := by
        simp only [Option.getD_some] at hs'
        simp [transition, hk, getJob, hj, bind, Except.bind, checkGuard, Guard.of, hg, pure,
          Except.pure, hs']
      rw [this]
      exact .done hj hg hw

theorem transition_no_guard (newState : Option JobState) :
    s.transition now js k newState none fields
      = s.transition now js k newState (Guard.of fun _ => true) fields := rfl

/-- A compare-and-set write keeps the placement. -/
theorem Placed.transition (hp : s.Placed) {newState : Option JobState} {guard : Option Guard}
    {r : Option JobRecord} {s' : InMemoryStore}
    (h : s.transition now js k newState guard fields = .ok (r, s'))
    (hf : ∀ f ∈ fields, f.Plain) : s'.Placed := by
  have hk : rejectKeyFields fields = .ok () := by
    rw [rejectKeyFields, (findSome?_eq_none_of_plain hf).2]
  rcases hj : s.job? js k with _ | old
  · simp [InMemoryStore.transition, hk, getJob, hj, bind, Except.bind] at h
  · obtain ⟨s₁, hs₁, hw⟩ := replaceRec_wrote now hp hj hf
      (some (newState.getD old.state))
    rcases hg : checkGuard guard old with err | _ | _
    · simp [InMemoryStore.transition, hk, getJob, hj, hg, bind, Except.bind] at h
    · obtain ⟨-, rfl⟩ : none = r ∧ s = s' := by
        simpa [InMemoryStore.transition, hk, getJob, hj, hg, bind, Except.bind, pure,
          Except.pure] using h
      exact hp
    · have : s.transition now js k newState guard fields = .ok (some (old.rewrite now
          (newState.getD old.state) old.revision fields), s₁) := by
        simp only [Option.getD_some] at hs₁
        simp [InMemoryStore.transition, hk, getJob, hj, hg, bind, Except.bind, pure, Except.pure,
          hs₁]
      obtain ⟨-, rfl⟩ := Prod.mk.inj (Except.ok.inj (this.symm.trans h))
      exact hw.placed hp

/-- A batch of one item with a guard that cannot raise is the single transition, a vanished record
skipped. -/
theorem transitionMany_singleton (hp : s.Placed) (hf : ∀ f ∈ fields, f.Plain)
    (newState : Option JobState) (p : JobRecord → Bool) :
    s.transitionMany now js [⟨k, newState, Guard.of p, fields⟩]
      = match s.transition now js k newState (Guard.of p) fields with
        | .error _ => (.ok [], s)
        | .ok (r, s') => (.ok r.toList, s') := by
  have hk : rejectKeyFields fields = .ok () := by
    rw [rejectKeyFields, (findSome?_eq_none_of_plain hf).2]
  have hkey : ([⟨k, newState, Guard.of p, fields⟩] : List TransitionSpec).findSome?
      (fun spec => spec.fields.findSome? Field.keyName?) = none := by
    simp [List.findSome?, (findSome?_eq_none_of_plain hf).2]
  rw [transitionMany, hkey]
  rcases hj : s.job? js k with _ | old
  · simp [transitionManyImpl, transition, hk, getJob, hj, bind, Except.bind]
  · rcases hg : p old with _ | _
    · simp [transitionManyImpl, transition, hk, getJob, hj, bind, Except.bind, checkGuard,
        Guard.of, hg, pure, Except.pure]
    · obtain ⟨s', hs', -⟩ := replaceRec_wrote now hp hj hf
        (some (newState.getD old.state))
      simp [transitionManyImpl, transition, hk, getJob, hj, bind, Except.bind, checkGuard,
        Guard.of, hg, pure, Except.pure, hs', Except.map]

/-- What one item of a batch makes of a record. -/
def batchWrite (now : Time) (spec : TransitionSpec) (old : JobRecord) : JobRecord :=
  match checkGuard spec.guard old with
  | .ok true => old.rewrite now (spec.newState.getD old.state) old.revision spec.fields
  | _ => old

/-- An item that cannot raise: its fields are plain and its guard answers. -/
def SafeSpec (spec : TransitionSpec) : Prop :=
  (∀ f ∈ spec.fields, f.Plain) ∧ ∀ r, ∃ b, checkGuard spec.guard r = .ok b

theorem transitionManyImpl_ok (hp : s.Placed) {specs : List TransitionSpec}
    (hsafe : ∀ spec ∈ specs, SafeSpec spec) (hnd : (specs.map (·.jobKey)).Nodup) :
    ∃ out s', s.transitionManyImpl now js specs = (.ok out, s') ∧ s'.Placed ∧
      ∀ k, s'.job? js k = (s.job? js k).map fun old =>
        ((specs.find? (·.jobKey = k)).elim old fun spec => batchWrite now spec old) := by
  induction specs generalizing s with
  | nil => exact ⟨[], s, rfl, hp, fun k => by simp⟩
  | cons spec specs ih =>
    rw [List.map_cons, List.nodup_cons] at hnd
    obtain ⟨hfresh, hnd⟩ := hnd
    obtain ⟨hplain, hguard⟩ := hsafe spec List.mem_cons_self
    have hrest : ∀ x ∈ specs, SafeSpec x := fun x hx => hsafe x (List.mem_cons_of_mem _ hx)
    have hother : specs.find? (·.jobKey = spec.jobKey) = none := by
      rw [List.find?_eq_none]
      intro x hx heq
      exact hfresh (List.mem_map.mpr ⟨x, hx, by simpa using heq⟩)
    -- the item writes nothing: the rest of the batch does what it does
    have hskip : (∀ old, s.job? js spec.jobKey = some old → batchWrite now spec old = old) →
        s.transitionManyImpl now js (spec :: specs) = s.transitionManyImpl now js specs →
        ∃ out s', s.transitionManyImpl now js (spec :: specs) = (.ok out, s') ∧ s'.Placed ∧
          ∀ k, s'.job? js k = (s.job? js k).map fun old =>
            (((spec :: specs).find? (·.jobKey = k)).elim old fun x => batchWrite now x old) := by
      intro hsame heq
      obtain ⟨out, s', hrun, hp', hread⟩ := ih hp hrest hnd
      refine ⟨out, s', heq.trans hrun, hp', fun k => (hread k).trans ?_⟩
      by_cases hk : spec.jobKey = k
      · subst hk
        rw [hother, List.find?_cons_of_pos (by simp)]
        rcases hj : s.job? js spec.jobKey with _ | old
        · rfl
        · simp [hsame old hj]
      · rw [List.find?_cons_of_neg (by simpa using hk)]
    rcases hj : s.job? js spec.jobKey with _ | old
    · exact hskip (fun old h => by simp [hj] at h) (by simp [transitionManyImpl, hj])
    · obtain ⟨b, hb⟩ := hguard old
      cases b with
      | false =>
        refine hskip (fun old' h => ?_) (by simp [transitionManyImpl, hj, hb])
        obtain rfl := Option.some.inj (hj.symm.trans h)
        simp [batchWrite, hb]
      | true =>
        obtain ⟨s₁, hs₁, hw⟩ := replaceRec_wrote now hp hj hplain
          (some (spec.newState.getD old.state))
        rw [Option.getD_some] at hs₁ hw
        obtain ⟨out, s', hrun, hp', hread⟩ := ih (hw.placed hp) hrest hnd
        refine ⟨old.rewrite now (spec.newState.getD old.state) old.revision spec.fields :: out, s',
          by simp [transitionManyImpl, hj, hb, hs₁, hrun, Except.map], hp',
          fun k => (hread k).trans ?_⟩
        rw [hw.job?]
        by_cases hk : k = spec.jobKey
        · subst hk
          simp [hother, hj, batchWrite, hb]
        · simp [hk, Ne.symm hk]

/-- **What a batch over distinct keys does**: each record is written by the one item that names it,
if the item's guard lets it through. -/
theorem transitionMany_ok (js : String) (now : Time) (hp : s.Placed) {specs : List TransitionSpec}
    (hsafe : ∀ spec ∈ specs, SafeSpec spec) (hnd : (specs.map (·.jobKey)).Nodup) :
    ∃ out s', s.transitionMany now js specs = (.ok out, s') ∧ s'.Placed ∧
      ∀ k, s'.job? js k = (s.job? js k).map fun old =>
        ((specs.find? (·.jobKey = k)).elim old fun spec => batchWrite now spec old) := by
  have hkey : (specs.findSome? fun spec => spec.fields.findSome? Field.keyName?) = none :=
    List.findSome?_eq_none_iff.mpr fun spec hm =>
      (findSome?_eq_none_of_plain (hsafe spec hm).1).2
  rw [transitionMany, hkey]
  exact transitionManyImpl_ok hp hsafe hnd

theorem dropRec_cases (s : InMemoryStore) (js k : String) :
    (s.job? js k = none ∧ s.dropRec js k = (none, s)) ∨
      ∃ old s', s.job? js k = some old ∧ s.dropRec js k = (some old, s') ∧
        Wrote s js k none s' := by
  rcases hj : s.jobs.get? js with _ | jobs
  · exact .inl ⟨by simp [job?, hj], by simp [dropRec, hj]⟩
  · rcases hk : jobs.get? k with _ | old
    · exact .inl ⟨by simp [job?, hj, hk], by simp [dropRec, hj, hk]⟩
    · refine .inr ⟨old, _, by simp [job?, hj, hk], by simp only [dropRec, hj, hk]; rfl, ?_⟩
      have hread : ∀ js' k', ((s.jobs.set js (jobs.erase k)).get? js').bind (fun d => d.get? k')
          = if js' = js ∧ k' = k then none else s.job? js' k' := by
        intro js' k'
        by_cases hjs : js' = js
        · subst hjs
          by_cases hk' : k' = k
          · simp [hk']
          · simp [Dict.get?_erase, hk', job?, hj]
        · simp [Dict.get?_set, hjs, job?]
      constructor
      · intro js' k'
        rw [← hread js' k']
        simp [job?]
      · simp
      · intro hp
        constructor
        · intro js'
          have hmem : js ∈ s.jobsets.keys := (hp.jobs_iff _).mp (Dict.mem_keys.mpr ⟨_, hj⟩)
          simp only [countDel_jobs, countDel_jobsets, Dict.mem_keys_set]
          exact ⟨fun h' => h'.elim (fun e => e ▸ hmem) (hp.jobs_iff _).mp,
            fun h' => .inr ((hp.jobs_iff _).mpr h')⟩
        · intro js' k' r hr
          have h' := hread js' k'
          simp only [job?, countDel_jobs] at hr
          rw [hr] at h'
          split at h'
          case isTrue => cases h'
          case isFalse => exact hp.own _ _ _ h'.symm

/-- Deleting a jobset removes its records and no others. -/
theorem job?_storeDeleteJobset (js' k' : String) :
    (s.storeDeleteJobset js).job? js' k' = if js' = js then none else s.job? js' k' := by
  simp only [storeDeleteJobset, job?, Dict.get?_erase]
  split <;> rfl

theorem Placed.storeDeleteJobset (hp : s.Placed) (js : String) :
    (s.storeDeleteJobset js).Placed where
  jobs_iff js' := by
    simp [InMemoryStore.storeDeleteJobset, Dict.mem_keys_erase, hp.jobs_iff]
  own js' k' r hr := by
    rw [job?_storeDeleteJobset] at hr
    split at hr
    case isTrue => cases hr
    case isFalse => exact hp.own _ _ _ hr

/-- Adding a record either raises or writes it, stamped, under a key that was free. -/
theorem storeAddJob_ok {r r' : JobRecord} {s' : InMemoryStore}
    (h : s.storeAddJob now r = .ok (r', s')) :
    r' = { r with updatedAt := some (r.updatedAt.getD now) } ∧
      s.job? r.jobsetId r.jobKey = none ∧ Wrote s r.jobsetId r.jobKey (some r') s' := by
  unfold storeAddJob at h
  split at h
  case isFalse => cases h
  case isTrue =>
    rcases hj : s.jobs.get? r.jobsetId with _ | jobs
    · rw [hj] at h; cases h
    · simp only [hj] at h
      split at h
      case isTrue => cases h
      case isFalse hk =>
        obtain ⟨s₁, hs₁, hw⟩ := putRec_wrote (s := s)
          (r := { r with updatedAt := some (r.updatedAt.getD now) })
          (Dict.mem_keys.mpr ⟨jobs, hj⟩)
        rw [hs₁] at h
        obtain ⟨rfl, rfl⟩ : _ = r' ∧ s₁ = s' := by simpa [Except.map] using h
        exact ⟨rfl, by simpa [job?, hj] using Dict.get?_eq_none.mpr hk, hw⟩

/-- Replacing a record writes the new one with the next revision of the old. -/
theorem updateJob_ok {r r' : JobRecord} {s' : InMemoryStore}
    (h : s.updateJob now r = .ok (r', s')) :
    ∃ old, s.job? r.jobsetId r.jobKey = some old ∧
      r' = r.rewrite now r.state old.revision [] ∧ Wrote s r.jobsetId r.jobKey (some r') s' := by
  unfold updateJob at h
  rcases hj : s.job? r.jobsetId r.jobKey with _ | old
  · rw [hj] at h; cases h
  · rw [hj] at h
    simp only [replaceRec, hj, List.findSome?_nil, Option.getD_none] at h
    obtain ⟨s₁, hs₁, hw⟩ := putRec_wrote (s := s) (r := r.rewrite now r.state old.revision [])
      (show r.jobsetId ∈ s.jobs.keys from mem_jobs_keys_of_job? hj)
    rw [hs₁] at h
    obtain ⟨rfl, rfl⟩ : _ = r' ∧ s₁ = s' := by simpa [Except.map] using h
    exact ⟨old, rfl, rfl, hw⟩

end Write

end InMemoryStore

end Lsfmgr
