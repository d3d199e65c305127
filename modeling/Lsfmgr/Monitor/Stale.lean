import Mathlib
import Lsfmgr.Jobset.Core
import Lsfmgr.Monitor.Interest
import Lsfmgr.Status.Retention
import Lsfmgr.Submit.Task

/-!
# Monitor/Stale — who takes an id out of the callback source

A query that finds its ids with a record leaves them in the source.  They are taken out by whoever
takes them off the record: `remove_jobs`, `clear_jobs`, `remove_jobset`, the edits and the reset of
a submission each note the ids and have the source forget them at the end.  All but the first two
note them before they write.

An id of interest is held by a record, noted by an operation under way, or asked for by a query that
will look after it (`Inv.accounted`).  Nothing else in the program takes ids off records, but that a
submission which ends writes its id over the one the record has.  So it all depends on the ids the
records have at the moment of a write (`Noted`): those that it takes away must be among the ones
that were noted before, or be spared otherwise.
-/

namespace Lsfmgr.Monitor.Stale

open Machinery Status Interest

/-- A record of the store holds the id. -/
def Holds (store : InMemoryStore) (id : ℕ) : Prop :=
  ∃ js k r, store.job? js k = some r ∧ r.jobId = some id

/-- `_ids_of` -/
def idsOf (records : List JobRecord) : List ℕ := records.filterMap (·.jobId)

/-! ## The operations that take ids off records -/

/-- An operation under way. -/
inductive Editor
  /-- `remove_jobset` has noted the ids of the jobset. -/
  | removing (jobsetId : String) (goneIds : List ℕ)
  /-- `_edit_jobs` has noted the ids of the records to replace. -/
  | editing (jobsetId : String) (records : List JobRecord) (policy : Jobset.Policy) (force : Bool)
      (before : Dict String (Option ℕ))
  /-- `local_edit_jobs` is writing; the plan pairs each record with the one it replaces. -/
  | writing (before : Dict String (Option ℕ)) (plan : List (JobRecord × Option JobRecord))
      (changed : List String)
  /-- `_reset_records` has noted the records; `staleIds` are those of the ones reset so far. -/
  | resetting (jobsetId : String) (previous : Dict String JobRecord)
      (keyed : List (String × String)) (staleIds : List ℕ)
  /-- At `forget_status`. -/
  | forgetting (jobIds : List ℕ)

namespace Editor

/-- `[before[k] for k in keys if before.get(k)]`: zero is no id. -/
def noted (before : Dict String (Option ℕ)) (keys : List String) : List ℕ :=
  keys.filterMap fun k => (before.get? k).join.filter (· ≠ 0)

/-- The ids that have been taken off a record and are yet to be forgotten. -/
def pending : Editor → List ℕ
  | .removing .. | .editing .. => []
  | .writing before _ changed => noted before changed
  | .resetting _ _ _ staleIds => staleIds
  | .forgetting jobIds => jobIds

/-- The checks of `local_edit_jobs`, all of them before the first write. -/
def plan (store : InMemoryStore) (jobsetId : String) (records : List JobRecord)
    (policy : Jobset.Policy) (force : Bool) : Option (List (JobRecord × Option JobRecord)) :=
  match store.getJobset jobsetId, Jobset.checkRecords jobsetId [] records,
      Jobset.editPlan jobsetId policy
        (store.getJobsByKeys jobsetId (records.map (·.jobKey))) records with
  | .ok _, .ok _, .ok plan =>
    if Jobset.activeKeys (plan.filterMap Prod.snd) ≠ [] ∧ force = false then none else some plan
  | _, _, _ => none

/-- `update_job` for a record that replaces one, `store_add_job` for a new one. -/
def put (store : InMemoryStore) (now : Time) (rec : JobRecord) (old : Option JobRecord) :
    Except StoreError (JobRecord × InMemoryStore) :=
  if old.isSome then store.updateJob now rec else store.storeAddJob now rec

/-- The next thing an operation does to the store, and where it stands afterwards: nowhere when it
has raised.  Between the checks of a deletion and the deletion a worker may write. -/
def work (store : InMemoryStore) (now : Time) (generation : ℕ) :
    Editor → Option (InMemoryStore × Option Editor)
  | .removing js goneIds =>
    if js ∈ store.jobsets.keys then some (store.storeDeleteJobset js, some (.forgetting goneIds))
    else none
  | .editing js records policy force before =>
    (plan store js records policy force).map fun plan => (store, some (.writing before plan []))
  | .writing before ((rec, old) :: plan) changed =>
    match put store now rec old with
    | .ok (_, store') => some (store', some (.writing before plan (changed ++ [rec.jobKey])))
    | .error _ => some (store, none)
  | .writing before [] changed => some (store, some (.forgetting (noted before changed)))
  | .resetting js previous ((k, command) :: keyed) staleIds =>
    match store.transition now js k (some .submitting) none
        (Submit.resetFields generation command) with
    | .ok (_, store') =>
      some (store', some (.resetting js previous keyed
        (staleIds ++ ((previous.get? k).bind (·.jobId)).toList)))
    | .error _ => some (store, some (.resetting js previous keyed staleIds))
  | .resetting _ _ [] staleIds => some (store, some (.forgetting staleIds))
  | .forgetting _ => none

/-- The operation may still be refused: it has written nothing. -/
def refusable : Editor → Bool
  | .removing .. | .editing .. => true
  | _ => false

end Editor

/-! ## The system -/

/-- The queries and the operations. -/
structure State where
  base : Interest.State
  editors : List Editor := []

inductive Act
  /-- A write to the store that leaves the job ids alone; a response; a section of a query.  The ids
  are forgotten by the operations. -/
  | base (a : Interest.Act)
  /-- `_task_succeeded`: `bsub` has returned the id. -/
  | submitted (jobsetId jobKey : String) (jobId : ℕ) (now : Time)
  /-- `create_jobset` takes the jobset back whose records are refused. -/
  | takeBack (jobsetId : String)
  /-- The checked deletion in `remove_jobs` and `clear_jobs`. -/
  | removeJobs (jobsetId : String) (jobKeys : List String)
  | removeJobset (jobsetId : String)
  | edit (jobsetId : String) (records : List JobRecord) (policy : Jobset.Policy) (force : Bool)
  | reset (jobsetId : String) (keyed : List (String × String))
  | work (i : ℕ) (now : Time) (generation : ℕ)
  | refuse (i : ℕ)
  | forget (i : ℕ)

/-- The field is not the job id. -/
def Field.leavesId : Field → Bool
  | .jobId _ => false
  | _ => true

/-- What workers, polls, kills and `create_jobset` write: no job id of a record that is there. -/
def leavesIds : InMemoryStore.Op → Bool
  | .insertJobset .. | .updateJobset .. | .addJobs .. => true
  | .transition _ _ _ _ _ fields => fields.all Field.leavesId
  | .transitionMany _ _ specs => specs.all fun spec => spec.fields.all Field.leavesId
  | .deleteJobset .. | .addJob .. | .deleteJob .. | .deleteJobs .. | .updateJob .. => false

namespace State

def store (s : State) : InMemoryStore := s.base.store

def setStore (s : State) (store : InMemoryStore) : State := { s with base := { s.base with store } }

def begin (s : State) (e : Editor) : State := { s with editors := e :: s.editors }

def setEditor (s : State) (i : ℕ) (e : Option Editor) : State :=
  { s with editors := replaceAt s.editors i e.toList }

/-- The ids under the keys of the records, as `_edit_jobs` notes them; a pure addition notes
nothing. -/
def before (s : State) (jobsetId : String) (records : List JobRecord) (policy : Jobset.Policy) :
    Dict String (Option ℕ) :=
  if policy = .add then ∅
  else (s.store.getJobsByKeys jobsetId (records.map (·.jobKey))).mapValues fun _ r => r.jobId

def step (o : Options) (s : State) : Act → Option State
  | .base (.forget _) => none
  | .base (.write op) =>
    if leavesIds op then some (s.setStore (s.store.perform op).2) else none
  | .base a => (s.base.step o a).map fun base => { s with base }
  | .submitted js k jobId now =>
    some (s.setStore (s.store.perform (.transition now js k (some .pend) none
      [.jobId (some jobId), .submitTime (some now), .failReason none, .failMessage none])).2)
  | .takeBack js => some (s.setStore (s.store.storeDeleteJobset js))
  | .removeJobs js ks =>
    let out := s.store.storeDeleteJobs js ks
    some ((s.setStore out.2).begin (.forgetting (idsOf out.1)))
  | .removeJobset js => some (s.begin (.removing js (idsOf (Scope.jobsOf s.store js))))
  | .edit js records policy force =>
    some (s.begin (.editing js records policy force (s.before js records policy)))
  | .reset js keyed =>
    some (s.begin (.resetting js (s.store.getJobsByKeys js (keyed.map Prod.fst)) keyed []))
  | .work i now generation =>
    (s.editors[i]?).bind fun e => (e.work s.store now generation).map fun out =>
      (s.setStore out.1).setEditor i out.2
  | .refuse i =>
    (s.editors[i]?).bind fun e => if e.refusable then some (s.setEditor i none) else none
  | .forget i =>
    (s.editors[i]?).bind fun e => match e with
    | .forgetting jobIds =>
      some ({ s with base := { s.base with src := s.base.src.forget jobIds } }.setEditor i none)
    | _ => none

end State

/-- The queries and operations of a manager over a new source. -/
def system (o : Options) : System State Act where
  init s := s = { base := { src := o.source } }
  step := State.step o

/-! ## The condition -/

/-- A query under way will look whether a record still holds the id. -/
def Covers (id : ℕ) (c : Call) : Prop :=
  match c.stage with
  | .asking => id ∈ c.ids
  | .cleaning finished => id ∈ finished
  | .scanning finished tracked _ _ _ => id ∈ finished ∧ id ∉ tracked

namespace State

variable (s : State)

/-- The id of a record at one of the places `gone` need not be noted: it is of no interest, or a
query will look after it, or a record elsewhere has it. -/
def Spared (gone : String → String → Prop) (id : ℕ) : Prop :=
  id ∉ s.base.src.interest ∨ (∃ c ∈ s.base.calls, Covers id c) ∨
    ∃ js k r, ¬ gone js k ∧ s.store.job? js k = some r ∧ r.jobId = some id

/-- **The ids that the records at the places `gone` have now** are among those given, or spared. -/
def Among (gone : String → String → Prop) (ids : List ℕ) : Prop :=
  ∀ js k r id, gone js k → s.store.job? js k = some r → r.jobId = some id →
    id ∈ ids ∨ s.Spared gone id

end State

/-- The places of a jobset. -/
def inJobset (jobsetId : String) : String → String → Prop := fun js _ => js = jobsetId

/-- The place of a record. -/
def onKey (jobsetId jobKey : String) : String → String → Prop :=
  fun js k => js = jobsetId ∧ k = jobKey

namespace Editor

/-- The record can be replaced, or the new one added. -/
def Puts (store : InMemoryStore) (rec : JobRecord) : Option JobRecord → Prop
  | some _ => (store.job? rec.jobsetId rec.jobKey).isSome
  | none => rec.jobsetId ∈ store.jobsets.keys ∧ (store.job? rec.jobsetId rec.jobKey).isNone

instance decidablePuts (store : InMemoryStore) (rec : JobRecord) :
    (old : Option JobRecord) → Decidable (Puts store rec old)
  | some _ => inferInstanceAs (Decidable (_ = true))
  | none => inferInstanceAs (Decidable (_ ∧ _))

/-- **What an operation is about to take away has been noted.**  A deletion takes the ids its jobset
has by now, a replacement and a reset the id of the record; an edit that raises gives up what it has
noted. -/
def Noted (s : State) : Editor → Prop
  | .removing js goneIds => s.Among (inJobset js) goneIds
  | .writing before ((rec, old) :: _) changed =>
    (Puts s.store rec old → s.Among (onKey rec.jobsetId rec.jobKey)
        (rec.jobId.toList ++ noted before (changed ++ [rec.jobKey]))) ∧
      (¬ Puts s.store rec old → ∀ id ∈ noted before changed, s.Spared (fun _ _ => False) id)
  | .resetting js previous ((k, _) :: _) staleIds =>
    s.Among (onKey js k) (staleIds ++ ((previous.get? k).bind (·.jobId)).toList)
  | _ => True

end Editor

/-- **The condition on a step**, in the state before it: what it takes away has been noted.  The end
of a submission notes nothing, but its record may have the id already. -/
def Noted (s : State) : Act → Prop
  | .submitted js k jobId _ => s.Among (onKey js k) [jobId]
  | .takeBack js => s.Among (inJobset js) []
  | .work i _ _ => ∀ e ∈ s.editors[i]?, e.Noted s
  | _ => True

section Decidable

/-- The ids of the records, each with its place. -/
def heldIds (store : InMemoryStore) : List (String × String × ℕ) :=
  store.jobs.entries.flatMap fun jobs =>
    jobs.2.entries.filterMap fun job => job.2.jobId.map fun id => (jobs.1, job.1, id)

theorem mem_heldIds {store : InMemoryStore} {js k : String} {id : ℕ} :
    (js, k, id) ∈ heldIds store ↔ ∃ r, store.job? js k = some r ∧ r.jobId = some id := by
  simp only [heldIds, List.mem_flatMap, List.mem_filterMap, Option.map_eq_some_iff, Prod.mk.injEq]
  constructor
  · rintro ⟨⟨_, jobs⟩, hjobs, ⟨_, r⟩, hr, _, hid, rfl, rfl, rfl⟩
    rw [← Dict.get?_eq_some] at hjobs hr
    exact ⟨r, by rw [InMemoryStore.job?, hjobs]; exact hr, hid⟩
  · rintro ⟨r, hr, hid⟩
    obtain ⟨jobs, hjobs, hr⟩ := Option.bind_eq_some_iff.mp hr
    exact ⟨(js, jobs), Dict.get?_eq_some.mp hjobs, (k, r), Dict.get?_eq_some.mp hr,
      id, hid, rfl, rfl, rfl⟩

instance decidableHolds (store : InMemoryStore) (id : ℕ) : Decidable (Holds store id) :=
  decidable_of_iff (∃ p ∈ heldIds store, p.2.2 = id) <| by
    constructor
    · rintro ⟨⟨js, k, id⟩, hp, rfl⟩
      obtain ⟨r, hr, hid⟩ := mem_heldIds.mp hp
      exact ⟨js, k, r, hr, hid⟩
    · rintro ⟨js, k, r, hr, hid⟩
      exact ⟨(js, k, id), mem_heldIds.mpr ⟨r, hr, hid⟩, rfl⟩

instance decidableCovers (id : ℕ) (c : Call) : Decidable (Covers id c) :=
  match c with
  | ⟨ids, _, .asking⟩ => inferInstanceAs (Decidable (id ∈ ids))
  | ⟨_, _, .cleaning finished⟩ => inferInstanceAs (Decidable (id ∈ finished))
  | ⟨_, _, .scanning finished tracked _ _ _⟩ =>
    inferInstanceAs (Decidable (id ∈ finished ∧ id ∉ tracked))

variable (s : State) (gone : String → String → Prop) [∀ js k, Decidable (gone js k)]

instance decidableSpared (id : ℕ) : Decidable (s.Spared gone id) :=
  decidable_of_iff (id ∉ s.base.src.interest ∨ (∃ c ∈ s.base.calls, Covers id c) ∨
      ∃ p ∈ heldIds s.store, ¬ gone p.1 p.2.1 ∧ p.2.2 = id) <| by
    refine or_congr_right (or_congr_right ⟨?_, ?_⟩)
    · rintro ⟨⟨js, k, id⟩, hp, hgone, rfl⟩
      obtain ⟨r, hr, hid⟩ := mem_heldIds.mp hp
      exact ⟨js, k, r, hgone, hr, hid⟩
    · rintro ⟨js, k, r, hgone, hr, hid⟩
      exact ⟨(js, k, id), mem_heldIds.mpr ⟨r, hr, hid⟩, hgone, rfl⟩

instance decidableAmong (ids : List ℕ) : Decidable (s.Among gone ids) :=
  decidable_of_iff (∀ p ∈ heldIds s.store, gone p.1 p.2.1 → p.2.2 ∈ ids ∨ s.Spared gone p.2.2) <| by
    constructor
    · exact fun h js k r id hgone hr hid => h (js, k, id) (mem_heldIds.mpr ⟨r, hr, hid⟩) hgone
    · rintro h ⟨js, k, id⟩ hp hgone
      obtain ⟨r, hr, hid⟩ := mem_heldIds.mp hp
      exact h js k r id hgone hr hid

instance decidableInJobset (jobsetId js k : String) : Decidable (inJobset jobsetId js k) :=
  inferInstanceAs (Decidable (js = jobsetId))

instance decidableOnKey (jobsetId jobKey js k : String) : Decidable (onKey jobsetId jobKey js k) :=
  inferInstanceAs (Decidable (js = jobsetId ∧ k = jobKey))

instance decidableEditorNoted (e : Editor) : Decidable (e.Noted s) :=
  match e with
  | .removing .. => decidableAmong s _ _
  | .writing before ((rec, old) :: _) changed =>
    inferInstanceAs
      (Decidable ((Editor.Puts s.store rec old → s.Among (onKey rec.jobsetId rec.jobKey)
        (rec.jobId.toList ++ Editor.noted before (changed ++ [rec.jobKey]))) ∧
      (¬ Editor.Puts s.store rec old →
        ∀ id ∈ Editor.noted before changed, s.Spared (fun _ _ => False) id)))
  | .resetting _ _ ((_, _) :: _) _ => decidableAmong s _ _
  | .writing _ [] _ | .resetting _ _ [] _ | .editing .. | .forgetting _ => .isTrue trivial

instance decidableNoted (a : Act) : Decidable (Noted s a) :=
  match a with
  | .submitted .. | .takeBack _ => decidableAmong s _ _
  | .work i _ _ => decidable_of_iff ((s.editors[i]?).all fun e => decide (e.Noted s)) <| by
      simp only [Noted, Option.mem_def, Option.all_eq_true, decide_eq_true_eq]
  | .base _ | .removeJobs .. | .removeJobset _ | .edit .. | .reset .. | .refuse _ | .forget _ =>
    .isTrue trivial

end Decidable

/-! ## The ledger holds nothing but what is of interest -/

/-- No id in the ledger that is not of interest. -/
def Within (src : Source) : Prop := ∀ id elems, src.ledger.get? id = some elems → id ∈ src.interest

section Within

variable {o : Options} {src : Source} {id : ℕ} {now : Time} {fetchAt : ℤ}

theorem get?_foldl_absorb (sts : List JobStatus) (acc : Ledger × List (ℕ × Option ℕ))
    (h : ∀ elems, acc.1.get? id = some elems → id ∈ src.interest) (elems : Dict (Option ℕ) Entry)
    (he : (sts.foldl (absorb src.interest now fetchAt) acc).1.get? id = some elems) :
    id ∈ src.interest := by
  induction sts generalizing acc with
  | nil => exact h elems he
  | cons st sts ih =>
    refine ih (absorb src.interest now fetchAt acc st) (fun elems he => ?_) he
    rw [absorb] at he
    split at he
    case isTrue => exact h elems he
    case isFalse hin =>
      split at he
      case isTrue => exact h elems he
      case isFalse =>
        dsimp only at he
        rw [Dict.get?_set] at he
        split at he
        case isTrue heq => exact heq ▸ not_not.mp hin
        case isFalse => exact h elems he

theorem Within.merged (h : Within src) (r : Response) : Within (src.merged o r) := by
  intro id elems he
  rw [(merged_frame o src r).1]
  rw [Source.merged] at he
  split at he
  · exact h id elems he
  · rename_i sts _
    change (merge o src sts r.now r.fetchAt).get? id = some elems at he
    rw [merge] at he
    split at he
    · rw [refreshRuntimes, Dict.get?_mapValues] at he
      obtain ⟨elems', he', -⟩ := Option.map_eq_some_iff.mp he
      exact get?_foldl_absorb sts (src.ledger, []) (h id) elems' he'
    · exact get?_foldl_absorb sts (src.ledger, []) (h id) elems he

theorem Within.prune (h : Within src) : Within (src.prune o fetchAt now) := by
  intro id elems he
  rcases prune_cases o src fetchAt now id with ⟨hl, hi⟩ | ⟨-, hl, hi⟩
  · rw [hi]
    exact h id elems (hl ▸ he)
  · rw [hl, Option.filter_eq_some_iff] at he
    obtain ⟨he, hkeys⟩ := he
    obtain ⟨elems₀, helems, rfl⟩ := Option.map_eq_some_iff.mp he
    refine hi.mpr ⟨h id elems₀ helems, fun elems' helems' => ?_⟩
    obtain rfl := Option.some.inj (helems.symm.trans helems')
    simpa using hkeys

/-- A response brings nothing in that is not of interest… -/
theorem Within.receive (h : Within src) (r : Response) : Within (src.receive o r) := by
  have hm := h.merged (o := o) r
  rcases receive_cases o src r with ⟨hl, hi⟩ | ⟨t, -, -, htl, hti, hl, hi⟩
  · intro id elems he
    rw [hi]
    exact hm id elems (hl ▸ he)
  · have ht : Within t := fun id elems he => hti ▸ hm id elems (htl ▸ he)
    intro id elems he
    rw [hi]
    exact ht.prune id elems (hl ▸ he)

/-- …and adds nothing to the interest. -/
theorem mem_interest_of_receive (r : Response) (h : id ∈ (src.receive o r).interest) :
    id ∈ src.interest := by
  rcases receive_cases o src r with ⟨-, hi⟩ | ⟨t, -, -, -, hti, -, hi⟩
  · rwa [hi, (merged_frame o src r).1] at h
  · rw [hi] at h
    have ht : id ∈ t.interest := by
      rcases prune_cases o t r.fetchAt r.now id with ⟨-, hp⟩ | ⟨-, -, hp⟩
      · rwa [hp] at h
      · exact (hp.mp h).1
    rwa [hti, (merged_frame o src r).1] at ht

theorem Within.forget (h : Within src) (ids : List ℕ) : Within (src.forget ids) := by
  intro id elems he
  rw [Source.forget, Dict.get?_foldl_erase] at he
  split at he
  case isTrue => cases he
  case isFalse hid =>
    exact Finset.mem_sdiff.mpr ⟨h id elems he, by simpa using hid⟩

end Within

/-! ## What the store holds -/

section Store

variable {store : InMemoryStore} {js k : String} {id : ℕ}

/-- A deletion returns every record it takes out. -/
theorem storeDeleteJobs_keeps (ks : List String) {js' : String} {r : JobRecord}
    (h : store.job? js' k = some r) :
    (store.storeDeleteJobs js ks).2.job? js' k = some r ∨ r ∈ (store.storeDeleteJobs js ks).1 := by
  induction ks generalizing store with
  | nil => exact .inl h
  | cons k' ks ih =>
    rw [InMemoryStore.storeDeleteJobs]
    rcases store.dropRec_cases js k' with ⟨-, hdrop⟩ | ⟨old, s₁, hold, hdrop, hw⟩
    · simp only [hdrop]
      exact ih h
    · simp only [hdrop]
      by_cases hk : js' = js ∧ k = k'
      · obtain ⟨rfl, rfl⟩ := hk
        obtain rfl := Option.some.inj (hold.symm.trans h)
        exact .inr List.mem_cons_self
      · obtain hkept | hret := ih (show s₁.job? js' k = some r by rw [hw.job?, if_neg hk]; exact h)
        · exact .inl hkept
        · exact .inr (List.mem_cons_of_mem _ hret)

theorem job?_of_getJobsByKeys {ks : List String} {r : JobRecord}
    (h : (store.getJobsByKeys js ks).get? k = some r) : store.job? js k = some r := by
  by_cases hk : k ∈ ks
  · rwa [InMemoryStore.get?_getJobsByKeys store ks hk] at h
  · have hnone : (store.getJobsByKeys js ks).get? k = none := by
      rw [InMemoryStore.getJobsByKeys]
      clear h
      induction ks using List.reverseRecOn with
      | nil => rfl
      | append_singleton ks k' ih =>
        rw [List.mem_append, List.mem_singleton, not_or] at hk
        rw [List.foldl_append, List.foldl_cons, List.foldl_nil]
        split
        · rw [Dict.get?_set_of_ne _ _ hk.2]
          exact ih hk.1
        · exact ih hk.1
    rw [hnone] at h
    cases h

theorem job?_of_mem_jobsOf {r : JobRecord} (h : r ∈ Scope.jobsOf store js) :
    ∃ k, store.job? js k = some r := by
  rw [Scope.jobsOf, InMemoryStore.getJobs] at h
  split at h
  case h_1 jobs hjobs =>
    split at hjobs
    case isTrue =>
      obtain rfl := Except.ok.inj hjobs
      obtain ⟨k, hk⟩ := Dict.mem_values.mp h
      refine ⟨k, ?_⟩
      rcases hj : store.jobs.get? js with _ | jobs
      · rw [hj] at hk
        cases hk
      · rw [hj] at hk
        rw [InMemoryStore.job?, hj]
        exact hk
    case isFalse => cases hjobs
  case h_2 => cases h

/-- What a reading of a clean-up finds is held by a record. -/
theorem holds_of_mem_records {scope : Scope} {finished : List ℕ} {r : JobRecord}
    (h : r ∈ scope.records store finished js) (hid : r.jobId = some id) : Holds store id := by
  cases scope with
  | all =>
    obtain ⟨k, hk⟩ := job?_of_mem_jobsOf (List.mem_filter.mp h).1
    exact ⟨js, k, r, hk, hid⟩
  | jobset =>
    obtain ⟨k, hk⟩ := job?_of_mem_jobsOf h
    exact ⟨js, k, r, hk, hid⟩
  | keys =>
    obtain ⟨k, hk⟩ := Dict.mem_values.mp h
    exact ⟨js, k, r, job?_of_getJobsByKeys hk, hid⟩

/-- The records at other places than these stay, with their job ids. -/
def Kept (gone : String → String → Prop) (store store' : InMemoryStore) : Prop :=
  ∀ js k r, ¬ gone js k → store.job? js k = some r →
    ∃ r', store'.job? js k = some r' ∧ r'.jobId = r.jobId

variable {store' store'' : InMemoryStore} {gone : String → String → Prop} {now : Time}

theorem Kept.refl (store : InMemoryStore) : Kept gone store store := fun _ _ r _ h => ⟨r, h, rfl⟩

theorem Kept.trans (h : Kept gone store store') (h' : Kept gone store' store'') :
    Kept gone store store'' := by
  intro js k r hout hr
  obtain ⟨r', hr', hid⟩ := h js k r hout hr
  obtain ⟨r'', hr'', hid'⟩ := h' js k r' hout hr'
  exact ⟨r'', hr'', hid'.trans hid⟩

theorem Kept.of_job? (h : ∀ js k, store'.job? js k = store.job? js k) : Kept gone store store' :=
  fun js k r _ hr => ⟨r, (h js k).trans hr, rfl⟩

/-- A write keeps what is elsewhere… -/
theorem Kept.of_wrote {v : Option JobRecord} (h : InMemoryStore.Wrote store js k v store') :
    Kept (onKey js k) store store' := by
  intro js' k' r hout hr
  rw [onKey] at hout
  exact ⟨r, by rw [h.job?, if_neg hout]; exact hr, rfl⟩

/-- …and the record it replaces, if that has its job id. -/
theorem Kept.of_rewrote {old new : JobRecord} (hold : store.job? js k = some old)
    (h : InMemoryStore.Wrote store js k (some new) store') (hid : new.jobId = old.jobId) :
    Kept gone store store' := by
  intro js' k' r _ hr
  by_cases hplace : js' = js ∧ k' = k
  · obtain ⟨rfl, rfl⟩ := hplace
    obtain rfl := Option.some.inj (hold.symm.trans hr)
    exact ⟨new, by rw [h.job?, if_pos ⟨rfl, rfl⟩], hid⟩
  · exact ⟨r, by rw [h.job?, if_neg hplace]; exact hr, rfl⟩

theorem Kept.storeDeleteJobset (js : String) :
    Kept (inJobset js) store (store.storeDeleteJobset js) := by
  intro js' k r hout hr
  rw [inJobset] at hout
  exact ⟨r, by rw [InMemoryStore.job?_storeDeleteJobset, if_neg hout]; exact hr, rfl⟩

theorem jobId_foldl_put {fields : List Field}
    (hf : fields.all Field.leavesId = true) (r : JobRecord) :
    (fields.foldl (fun r f => f.put r) r).jobId = r.jobId := by
  induction fields generalizing r with
  | nil => rfl
  | cons f fields ih =>
    rw [List.all_cons, Bool.and_eq_true] at hf
    rw [List.foldl_cons, ih hf.2]
    cases f with
    | jobId => cases hf.1
    | _ => rfl

/-- A transition that does not set the job id. -/
theorem Kept.transition (hp : store.Placed) {ns : Option JobState} {guard : Option Guard}
    {fields : List Field} (hf : fields.all Field.leavesId = true) {out : Option JobRecord}
    (h : store.transition now js k ns guard fields = .ok (out, store')) :
    Kept gone store store' := by
  obtain ⟨-, rfl⟩ | ⟨old, new, -, hold, rfl, -, hw⟩ := InMemoryStore.transition_ok hp h
  · exact .refl store'
  · exact .of_rewrote hold hw (jobId_foldl_put hf old)

theorem Kept.transitionMany (hp : store.Placed) {specs : List TransitionSpec}
    (hf : specs.all (fun spec => spec.fields.all Field.leavesId) = true) :
    Kept gone store (store.transitionMany now js specs).2 := by
  rw [InMemoryStore.transitionMany]
  split
  case h_1 => exact .refl store
  case h_2 hkeys =>
    have hk : InMemoryStore.NoKeyField specs := List.findSome?_eq_none_iff.mp hkeys
    clear hkeys
    induction specs generalizing store with
    | nil => exact .refl store
    | cons spec specs ih =>
      rw [List.all_cons, Bool.and_eq_true] at hf
      obtain ⟨hk₁, hk⟩ := List.forall_mem_cons.mp hk
      cases InMemoryStore.batchStep hp now specs hk₁ with
      | gone _ heq => rw [heq]; exact ih hp hf.2 hk
      | refused _ _ _ heq => rw [heq]; exact ih hp hf.2 hk
      | raised _ _ heq => rw [heq]; exact .refl store
      | @written old s₁ hj _ hwrites hw heq =>
        rw [heq]
        refine (Kept.of_rewrote hj hw ?_).trans (ih (hw.placed hp) hf.2 hk)
        rw [InMemoryStore.batchWrite]
        split
        · exact jobId_foldl_put hf.1 old
        · rfl

theorem Kept.putAll (now : Time) {records : List JobRecord}
    (hnew : ∀ r ∈ records, store.job? r.jobsetId r.jobKey = none) :
    Kept gone store (store.putAll now records).2 := by
  intro js k r _ hr
  have hother : ∀ r' ∈ records, ¬ (js = r'.jobsetId ∧ k = r'.jobKey) := by
    rintro r' hr' ⟨rfl, rfl⟩
    cases (hnew r' hr').symm.trans hr
  clear hnew
  refine ⟨r, ?_, rfl⟩
  induction records generalizing store with
  | nil => exact hr
  | cons r' records ih =>
    obtain ⟨hne, hother⟩ := List.forall_mem_cons.mp hother
    rw [InMemoryStore.putAll]
    rcases hj : store.jobs.get? r'.jobsetId with _ | jobs
    · simp only [InMemoryStore.putRec, hj]
      exact hr
    · obtain ⟨s₁, hs₁, hw⟩ := InMemoryStore.putRec_wrote (s := store)
        (r := { r' with updatedAt := some (r'.updatedAt.getD now) }) (Dict.mem_keys.mpr ⟨jobs, hj⟩)
      simp only [hs₁]
      exact ih (by rw [hw.job?, if_neg hne]; exact hr) hother

/-- **What is written outside the operations keeps every job id.** -/
theorem Kept.perform (hp : store.Placed) {op : InMemoryStore.Op} (h : leavesIds op = true) :
    Kept gone store (store.perform op).2 := by
  cases op with
  | insertJobset now record =>
    rw [InMemoryStore.perform, InMemoryStore.storeInsertJobset]
    split
    case isTrue => exact .refl store
    case isFalse =>
      refine .of_job? fun js k => ?_
      simp only [InMemoryStore.single, InMemoryStore.job?, Dict.get?_set]
      split
      case isTrue heq =>
        rw [heq]
        cases store.jobs.get? record.jobsetId <;> rfl
      case isFalse => rfl
  | updateJobset record =>
    rw [InMemoryStore.perform, InMemoryStore.updateJobset]
    split <;> exact .of_job? fun _ _ => rfl
  | addJobs now records =>
    rw [InMemoryStore.perform, InMemoryStore.batch_snd, InMemoryStore.storeAddJobs]
    split
    case h_1 => exact .refl store
    case h_2 hcheck => exact .putAll now (InMemoryStore.checkNewJobs_free hcheck)
  | transition now js k ns guard fields =>
    rw [InMemoryStore.perform]
    rcases htr : store.transition now js k ns guard fields with e | ⟨out, store'⟩
    · exact .refl store
    · exact .transition hp h htr
  | transitionMany now js specs =>
    rw [InMemoryStore.perform, InMemoryStore.batch_snd]
    exact .transitionMany hp h
  | deleteJobset | addJob | deleteJob | deleteJobs | updateJob => cases h

/-- An edit writes exactly when it can. -/
theorem put_ok_iff (hp : store.Placed) {rec : JobRecord} {old : Option JobRecord} :
    (∃ out, Editor.put store now rec old = .ok out) ↔ Editor.Puts store rec old := by
  cases old with
  | some old =>
    simp only [Editor.put, Option.isSome_some, if_true, Editor.Puts, Option.isSome_iff_exists]
    constructor
    · rintro ⟨⟨r, store'⟩, h⟩
      obtain ⟨old, hold, -⟩ := InMemoryStore.updateJob_ok h
      exact ⟨old, hold⟩
    · rintro ⟨old, hold⟩
      obtain ⟨r, store', hr⟩ := InMemoryStore.updateJob_succeeds now hold
      exact ⟨_, hr⟩
  | none =>
    simp only [Editor.put, Option.isSome_none, Bool.false_eq_true, if_false, Editor.Puts,
      Option.isNone_iff_eq_none]
    constructor
    · rintro ⟨⟨r, store'⟩, h⟩
      refine ⟨?_, (InMemoryStore.storeAddJob_ok h).2.1⟩
      rw [InMemoryStore.storeAddJob] at h
      split at h
      case isTrue hjs => exact hjs
      case isFalse => cases h
    · rintro ⟨hjs, hfree⟩
      obtain ⟨r, store', hr⟩ := InMemoryStore.storeAddJob_succeeds now hp hjs hfree
      exact ⟨_, hr⟩

/-- The record that is written, under its key, with its job id. -/
theorem put_wrote {rec new : JobRecord} {old : Option JobRecord}
    (h : Editor.put store now rec old = .ok (new, store')) :
    new.jobId = rec.jobId ∧ InMemoryStore.Wrote store rec.jobsetId
        rec.jobKey (some new) store' := by
  rw [Editor.put] at h
  split at h
  · obtain ⟨old, -, rfl, hw⟩ := InMemoryStore.updateJob_ok h
    exact ⟨rfl, hw⟩
  · obtain ⟨rfl, -, hw⟩ := InMemoryStore.storeAddJob_ok h
    exact ⟨rfl, hw⟩

/-- Every step of an operation is one of the store's operations, or none. -/
theorem work_performs {e : Editor} {now : Time} {generation : ℕ}
    {out : InMemoryStore × Option Editor} (h : e.work store now generation = some out) :
    out.1 = store ∨ ∃ op, out.1 = (store.perform op).2 := by
  cases e with
  | removing js goneIds =>
    rw [Editor.work] at h
    split at h
    case isTrue =>
      obtain rfl := Option.some.inj h
      exact .inr ⟨.deleteJobset js, rfl⟩
    case isFalse => cases h
  | editing js records policy force before =>
    obtain ⟨plan, -, rfl⟩ := Option.map_eq_some_iff.mp h
    exact .inl rfl
  | writing before plan changed =>
    rcases plan with _ | ⟨⟨rec, old⟩, plan⟩
    · obtain rfl := Option.some.inj h
      exact .inl rfl
    · rw [Editor.work] at h
      split at h
      case h_1 out' store' hput =>
        obtain rfl := Option.some.inj h
        rw [Editor.put] at hput
        split at hput
        · exact .inr ⟨.updateJob now rec, by rw [InMemoryStore.perform, hput]; rfl⟩
        · exact .inr ⟨.addJob now rec, by rw [InMemoryStore.perform, hput]; rfl⟩
      case h_2 =>
        obtain rfl := Option.some.inj h
        exact .inl rfl
  | resetting js previous keyed staleIds =>
    rcases keyed with _ | ⟨⟨k, command⟩, keyed⟩
    · obtain rfl := Option.some.inj h
      exact .inl rfl
    · rw [Editor.work] at h
      split at h
      case h_1 out' store' htr =>
        obtain rfl := Option.some.inj h
        exact .inr ⟨.transition now js k (some .submitting) none
          (Submit.resetFields generation command), by rw [InMemoryStore.perform, htr]; rfl⟩
      case h_2 =>
        obtain rfl := Option.some.inj h
        exact .inl rfl
  | forgetting jobIds => cases h

end Store

/-! ## The invariant -/

/-- **Every id of interest is accounted for**: by a record, an operation or a query. -/
structure Inv (s : State) : Prop where
  base : Interest.Inv s.base
  within : Within s.base.src
  accounted : ∀ id ∈ s.base.src.interest, Holds s.store id ∨
    (∃ e ∈ s.editors, id ∈ e.pending) ∨ ∃ c ∈ s.base.calls, Covers id c

namespace Inv

variable {o : Options} {s s' : State} {i id : ℕ} {c : Call} {base : Interest.State}

/-- A step that writes to the store, and takes away what is among `ids` only. -/
theorem accounted_of_write {store : InMemoryStore} {gone : String → String → Prop} {ids : List ℕ}
    (h : s.Among gone ids) (hkept : Kept gone s.store store) (hid : id ∈ s.base.src.interest)
    (hheld : Holds s.store id) : Holds store id ∨ id ∈ ids ∨ ∃ c ∈ s.base.calls, Covers id c := by
  obtain ⟨js, k, r, hr, hrid⟩ := hheld
  by_cases hgone : gone js k
  · obtain hin | hout | hcall | ⟨js', k', r', hout, hr', hrid'⟩ := h js k r id hgone hr hrid
    · exact .inr (.inl hin)
    · exact absurd hid hout
    · exact .inr (.inr hcall)
    · obtain ⟨r'', hr'', heq⟩ := hkept js' k' r' hout hr'
      exact .inl ⟨js', k', r'', hr'', heq.trans hrid'⟩
  · obtain ⟨r', hr', heq⟩ := hkept js k r hgone hr
    exact .inl ⟨js, k, r', hr', heq.trans hrid⟩

/-- A step that takes away nothing. -/
theorem holds_of_kept {store : InMemoryStore} (hkept : Kept (fun _ _ => False) s.store store)
    (hheld : Holds s.store id) : Holds store id := by
  obtain ⟨js, k, r, hr, hrid⟩ := hheld
  obtain ⟨r', hr', heq⟩ := hkept js k r not_false hr
  exact ⟨js, k, r', hr', heq.trans hrid⟩

/-- A step after which the records and the operations are the same, and the queries look after as
much as before, of what is still of interest. -/
theorem of_covers (h : Inv s) (hbase : Interest.Inv base) (hwithin : Within base.src)
    (hstore : base.store = s.store)
    (hcov : ∀ id ∈ base.src.interest, (∃ c ∈ base.calls, Covers id c) ∨
      id ∈ s.base.src.interest ∧ ((∃ c ∈ s.base.calls, Covers id c) →
        Holds s.store id ∨ ∃ c ∈ base.calls, Covers id c)) : Inv { s with base } := by
  refine ⟨hbase, hwithin, fun id hid => ?_⟩
  have hheld : Holds base.store id ↔ Holds s.store id := by rw [hstore]
  obtain hnew | ⟨hold, hkept⟩ := hcov id hid
  · exact .inr (.inr hnew)
  · obtain hrec | hpend | hcall := h.accounted id hold
    · exact .inl (hheld.mpr hrec)
    · exact .inr (.inl hpend)
    · obtain hrec | hcall := hkept hcall
      · exact .inl (hheld.mpr hrec)
      · exact .inr (.inr hcall)

theorem covers_iff {stage : Stage} (h : c.stage = stage) :
    Covers id c ↔ Covers id { c with stage } := by
  subst h
  exact Iff.rfl

/-- A call at place `i` goes on: of what it looked after, something else does. -/
theorem covers_replaceAt (hc : s.base.calls[i]? = some c) {cs : List Call} {P : Prop}
    (hnext : Covers id c → P ∨ ∃ c' ∈ replaceAt s.base.calls i cs, Covers id c')
    (h : ∃ c ∈ s.base.calls, Covers id c) :
    P ∨ ∃ c' ∈ replaceAt s.base.calls i cs, Covers id c' := by
  obtain ⟨c', hc', hcov⟩ := h
  by_cases heq : c' = c
  · exact hnext (heq ▸ hcov)
  · exact .inr ⟨c', mem_replaceAt_of_ne hc hc' heq, hcov⟩

/-- An id that a call was not the last one for is still asked for. -/
theorem asked_of_leave (h : Interest.Inv s.base) (hc : s.base.calls[i]? = some c)
    (hs : c.asking = true) (hid : id ∈ c.ids) {fin : List ℕ}
    (hfin : ∀ id, id ∈ fin ↔ id ∈ c.ids ∧ s.base.active id = 1) :
    ∃ c' ∈ replaceAt s.base.calls i [{ c with stage := .cleaning fin }], Covers id c' := by
  by_cases hlast : id ∈ fin
  · exact ⟨_, mem_replaceAt_right List.mem_cons_self, hlast⟩
  · have hone : s.base.active id ≠ 1 := fun hone => hlast ((hfin id).mpr ⟨hid, hone⟩)
    have hpos : s.base.active id ≠ 0 := by
      intro hzero
      exact List.countP_eq_zero.mp hzero c (List.mem_of_getElem? hc) (by simp [Call.asks, hs, hid])
    have hactive := h.active_leave hc hs fin id
    rw [List.count_eq_one_of_mem (h.nodup c (List.mem_of_getElem? hc)) hid] at hactive
    obtain ⟨c', hc', hasks⟩ := List.countP_pos_iff.mp
      (show 0 < (replaceAt s.base.calls i [{ c with stage := .cleaning fin }]).countP
        (Call.asks id) by omega)
    rw [Call.asks, Bool.and_eq_true, decide_eq_true_iff] at hasks
    refine ⟨c', hc', ?_⟩
    rcases c' with ⟨ids, scope, _ | _ | _⟩
    · exact hasks.2
    · cases hasks.1
    · cases hasks.1

/-- **A section of a query** leaves every id of interest accounted for. -/
theorem act (h : Inv s) {sec : Section} (hc : s.base.calls[i]? = some c)
    (hs : s.base.act i c sec = some base) : Inv { s with base } := by
  have hbase := h.base.act hc hs
  obtain ⟨-, hstage, rfl⟩ | ⟨-, hstage, -, hl⟩ | ⟨fin, -, hstage, rfl⟩ |
    ⟨fin, tracked, js, todo, listing, seen, -, hstage, rfl⟩ |
    ⟨fin, tracked, listing, seen, -, hstage, rfl⟩ := act_cases hs
  · -- what is registered is asked for
    refine h.of_covers hbase (fun id elems he => ?_) rfl fun id hid => ?_
    · exact Finset.mem_union_left _ (h.within id elems he)
    · obtain hold | hnew := Finset.mem_union.mp hid
      · exact .inr ⟨hold, .inr⟩
      · exact .inl ⟨c, List.mem_of_getElem? hc,
          (covers_iff hstage).mpr (List.mem_toFinset.mp hnew)⟩
  · have hasking : c.asking = true := asking_of_stage hstage
    obtain ⟨d, fin, hrun, -, hfin⟩ := h.base.leave_succeeds hc hasking
    rw [Interest.State.leave, hrun] at hl
    obtain rfl := Option.some.inj hl
    refine h.of_covers hbase h.within rfl fun id hid =>
      .inr ⟨hid, covers_replaceAt hc fun hcov => ?_⟩
    exact .inr (asked_of_leave h.base hc hasking ((covers_iff hstage).mp hcov) hfin)
  · refine h.of_covers hbase h.within rfl fun id hid =>
      .inr ⟨hid, covers_replaceAt hc fun hcov => ?_⟩
    exact .inr ⟨_, mem_replaceAt_right List.mem_cons_self,
      (covers_iff hstage).mp hcov, List.not_mem_nil⟩
  · refine h.of_covers hbase h.within rfl fun id hid =>
      .inr ⟨hid, covers_replaceAt hc fun hcov => ?_⟩
    obtain ⟨hmem, hout⟩ := (covers_iff hstage).mp hcov
    by_cases hread : id ∈ (c.scope.records s.base.store fin js).filterMap (·.jobId)
    · obtain ⟨r, hr, hid⟩ := List.mem_filterMap.mp hread
      exact .inl (holds_of_mem_records hr hid)
    · exact .inr ⟨_, mem_replaceAt_right List.mem_cons_self, hmem,
        fun hin => (List.mem_append.mp hin).elim hout hread⟩
  · refine h.of_covers hbase (h.within.forget _) rfl fun id hid => .inr ?_
    obtain ⟨hold, hkept⟩ := Finset.mem_sdiff.mp hid
    refine ⟨hold, covers_replaceAt hc fun hcov => ?_⟩
    obtain ⟨hmem, hout⟩ := (covers_iff hstage).mp hcov
    exact absurd (List.mem_toFinset.mpr (List.mem_filter.mpr ⟨hmem, by simpa using hout⟩)) hkept

/-- **A write**, from outside the operations or the last of a submission. -/
theorem write (h : Inv s) (op : InMemoryStore.Op)
    (hnext : ∀ id ∈ s.base.src.interest, Holds s.store id →
      Holds (s.store.perform op).2 id ∨ ∃ c ∈ s.base.calls, Covers id c) :
    Inv (s.setStore (s.store.perform op).2) := by
  refine ⟨h.base.write op, h.within, fun id hid => ?_⟩
  obtain hrec | hrest := h.accounted id hid
  · exact (hnext id hid hrec).imp_right .inr
  · exact .inr hrest

/-- **A response or a section of a query.** -/
theorem baseStep (h : Inv s) {a : Interest.Act} (ha : ∀ ids, a ≠ .forget ids)
    (hw : ∀ op, a ≠ .write op) (hs : s.base.step o a = some base) : Inv { s with base } := by
  have hbase := h.base.step hs
  cases a with
  | write op => exact absurd rfl (hw op)
  | respond r =>
    obtain rfl := Option.some.inj hs
    exact h.of_covers hbase (h.within.receive r) rfl fun id hid =>
      .inr ⟨mem_interest_of_receive r hid, .inr⟩
  | forget ids => exact absurd rfl (ha ids)
  | enter jobIds jobsetId jobKeys =>
    rw [Interest.State.step] at hs
    split at hs
    case isTrue => cases hs
    case isFalse =>
      obtain rfl := Option.some.inj hs
      refine h.of_covers hbase h.within rfl fun id hid => .inr ⟨hid, ?_⟩
      rintro ⟨c, hc, hcov⟩
      exact .inr ⟨c, List.mem_cons_of_mem _ hc, hcov⟩
  | call i sec =>
    obtain ⟨c, hc, hs⟩ := Option.bind_eq_some_iff.mp hs
    exact h.act hc hs

/-- `_task_succeeded` -/
theorem submitted (h : Inv s) {js k : String} {jobId : ℕ} {now : Time}
    (hn : s.Among (onKey js k) [jobId]) :
    Inv (s.setStore (s.store.perform (.transition now js k (some .pend) none
      [.jobId (some jobId), .submitTime (some now), .failReason none, .failMessage none])).2) := by
  refine h.write _ fun id hid hheld => ?_
  rw [InMemoryStore.perform]
  rcases htr : s.store.transition now js k (some .pend) none
    [.jobId (some jobId), .submitTime (some now), .failReason none, .failMessage none]
    with e | ⟨out, store'⟩
  · exact .inl hheld
  · obtain ⟨-, rfl⟩ | ⟨old, new, -, hold, rfl, -, hw⟩ :=
      InMemoryStore.transition_ok h.base.represented.placed htr
    · exact .inl hheld
    · obtain hrec | hin | hcall := accounted_of_write hn (.of_wrote hw) hid hheld
      · exact .inl hrec
      · obtain rfl := List.mem_singleton.mp hin
        refine .inl ⟨js, k, old.rewrite now .pend old.revision [.jobId (some id),
          .submitTime (some now), .failReason none, .failMessage none], ?_, rfl⟩
        change store'.job? js k = some _
        rw [hw.job?, if_pos ⟨rfl, rfl⟩]
        rfl
      · exact .inr hcall

/-- An operation begins. -/
theorem begin (h : Inv s) (e : Editor) : Inv (s.begin e) := by
  refine ⟨h.base, h.within, fun id hid => ?_⟩
  obtain hrec | ⟨e', he', hpend⟩ | hcall := h.accounted id hid
  · exact .inl hrec
  · exact .inr (.inl ⟨e', List.mem_cons_of_mem _ he', hpend⟩)
  · exact .inr (.inr hcall)

/-- An operation whose ids are of no interest any more, or accounted for otherwise, ends or goes
on. -/
theorem setEditor (h : Inv s) {e : Editor} (he : s.editors[i]? = some e) (e' : Option Editor)
    {base : Interest.State} (hbase : Interest.Inv base) (hwithin : Within base.src)
    (hcalls : base.calls = s.base.calls)
    (hinterest : ∀ id ∈ base.src.interest, id ∈ s.base.src.interest)
    (hnext : ∀ id ∈ base.src.interest, Holds s.store id ∨ id ∈ e.pending →
      Holds base.store id ∨ (∃ e'' ∈ e', id ∈ e''.pending) ∨ ∃ c ∈ s.base.calls, Covers id c) :
    Inv ({ s with base }.setEditor i e') := by
  have hthere : ∀ id, (∃ e'' ∈ e', id ∈ e''.pending) →
      ∃ e'' ∈ replaceAt s.editors i e'.toList, id ∈ e''.pending := by
    rintro id ⟨e'', he'', hid⟩
    exact ⟨e'', mem_replaceAt_right (Option.mem_toList.mpr he''), hid⟩
  refine ⟨hbase, hwithin, fun id hid => ?_⟩
  change Holds base.store id ∨ (∃ e'' ∈ replaceAt s.editors i e'.toList, id ∈ e''.pending) ∨
    ∃ c ∈ base.calls, Covers id c
  rw [hcalls]
  obtain hrec | ⟨e₁, he₁, hpend⟩ | hcall := h.accounted id (hinterest id hid)
  · exact (hnext id hid (.inl hrec)).imp_right (Or.imp_left (hthere id))
  · by_cases heq : e₁ = e
    · subst heq
      exact (hnext id hid (.inr hpend)).imp_right (Or.imp_left (hthere id))
    · exact .inr (.inl ⟨e₁, mem_replaceAt_of_ne he he₁ heq, hpend⟩)
  · exact .inr (.inr hcall)

/-- Where an operation takes an id off a record it is on its list afterwards. -/
theorem next (h : Inv s) {e : Editor} {now : Time} {generation : ℕ}
    {out : InMemoryStore × Option Editor} (hw : e.work s.store now generation = some out)
    (hn : e.Noted s) (hid : id ∈ s.base.src.interest) (hacc : Holds s.store id ∨ id ∈ e.pending) :
    Holds out.1 id ∨ (∃ e' ∈ out.2, id ∈ e'.pending) ∨ ∃ c ∈ s.base.calls, Covers id c := by
  have hp := h.base.represented.placed
  cases e with
  | removing js goneIds =>
    rw [Editor.work] at hw
    split at hw
    case isFalse => cases hw
    case isTrue =>
      obtain rfl := Option.some.inj hw
      obtain hheld | hpend := hacc
      · exact (accounted_of_write hn (.storeDeleteJobset js) hid hheld).imp_right
          (Or.imp_left fun hin => ⟨_, rfl, hin⟩)
      · cases hpend
  | editing js records policy force before =>
    obtain ⟨plan, -, rfl⟩ := Option.map_eq_some_iff.mp hw
    obtain hheld | hpend := hacc
    · exact .inl hheld
    · cases hpend
  | writing before plan changed =>
    rcases plan with _ | ⟨⟨rec, old⟩, plan⟩
    · obtain rfl := Option.some.inj hw
      exact hacc.imp_right fun hpend => .inl ⟨_, rfl, hpend⟩
    · have hputs := @put_ok_iff _ now hp rec old
      rw [Editor.Noted] at hn
      rw [Editor.work] at hw
      split at hw
      case h_1 new store' hput =>
        obtain rfl := Option.some.inj hw
        obtain ⟨hrec, hwrote⟩ := put_wrote hput
        have hmono : id ∈ Editor.noted before changed →
            id ∈ Editor.noted before (changed ++ [rec.jobKey]) := by
          rw [Editor.noted, Editor.noted, List.filterMap_append]
          exact List.mem_append_left _
        obtain hheld | hpend := hacc
        · obtain hkept | hin | hcall :=
            accounted_of_write (hn.1 (hputs.mp ⟨_, hput⟩)) (.of_wrote hwrote) hid hheld
          · exact .inl hkept
          · obtain hown | hin := List.mem_append.mp hin
            · refine .inl
                ⟨rec.jobsetId, rec.jobKey, new, ?_, hrec.trans (Option.mem_toList.mp hown)⟩
              rw [hwrote.job?, if_pos ⟨rfl, rfl⟩]
            · exact .inr (.inl ⟨_, rfl, hin⟩)
          · exact .inr (.inr hcall)
        · exact .inr (.inl ⟨_, rfl, hmono hpend⟩)
      case h_2 e herr =>
        obtain rfl := Option.some.inj hw
        have hraises : ¬ Editor.Puts s.store rec old := by
          intro hput
          obtain ⟨out, hok⟩ := hputs.mpr hput
          cases hok.symm.trans herr
        obtain hheld | hpend := hacc
        · exact .inl hheld
        · obtain hout | hcall | ⟨js, k, r, -, hr, hrid⟩ := hn.2 hraises id hpend
          · exact absurd hid hout
          · exact .inr (.inr hcall)
          · exact .inl ⟨js, k, r, hr, hrid⟩
  | resetting js previous keyed staleIds =>
    rcases keyed with _ | ⟨⟨k, command⟩, keyed⟩
    · obtain rfl := Option.some.inj hw
      exact hacc.imp_right fun hpend => .inl ⟨_, rfl, hpend⟩
    · rw [Editor.work] at hw
      split at hw
      case h_1 out' store' htr =>
        obtain rfl := Option.some.inj hw
        have hkept : Kept (onKey js k) s.store store' := by
          obtain ⟨-, rfl⟩ | ⟨old, new, -, -, -, -, hwrote⟩ := InMemoryStore.transition_ok hp htr
          · exact .refl _
          · exact .of_wrote hwrote
        obtain hheld | hpend := hacc
        · exact (accounted_of_write hn hkept hid hheld).imp_right
            (Or.imp_left fun hin => ⟨_, rfl, hin⟩)
        · exact .inr (.inl ⟨_, rfl, List.mem_append_left _ hpend⟩)
      case h_2 =>
        obtain rfl := Option.some.inj hw
        exact hacc.imp_right fun hpend => .inl ⟨_, rfl, hpend⟩
  | forgetting jobIds => cases hw

/-- **An operation does its next step.** -/
theorem work (h : Inv s) {e : Editor} (he : s.editors[i]? = some e) {now : Time} {generation : ℕ}
    {out : InMemoryStore × Option Editor} (hw : e.work s.store now generation = some out)
    (hn : e.Noted s) : Inv ((s.setStore out.1).setEditor i out.2) := by
  have hbase : Interest.Inv { s.base with store := out.1 } := by
    obtain hsame | ⟨op, hop⟩ := work_performs hw
    · rw [hsame]
      exact h.base
    · rw [hop]
      exact h.base.write op
  exact h.setEditor he out.2 hbase h.within rfl (fun _ hid => hid) fun id hid hacc =>
    h.next hw hn hid hacc

/-- The deletion in `remove_jobs` and `clear_jobs` notes what it takes out. -/
theorem removeJobs (h : Inv s) (js : String) (ks : List String) :
    Inv ((s.setStore (s.store.storeDeleteJobs js ks).2).begin
      (.forgetting (idsOf (s.store.storeDeleteJobs js ks).1))) := by
  refine ⟨h.base.write (.deleteJobs js ks), h.within, fun id hid => ?_⟩
  obtain ⟨js', k, r, hr, hrid⟩ | ⟨e, he, hpend⟩ | hcall := h.accounted id hid
  · obtain hkept | hret := storeDeleteJobs_keeps ks hr
    · exact .inl ⟨js', k, r, hkept, hrid⟩
    · exact .inr (.inl ⟨_, List.mem_cons_self, List.mem_filterMap.mpr ⟨r, hret, hrid⟩⟩)
  · exact .inr (.inl ⟨e, List.mem_cons_of_mem _ he, hpend⟩)
  · exact .inr (.inr hcall)

/-- The noted ids are forgotten. -/
theorem forget (h : Inv s) {jobIds : List ℕ} (he : s.editors[i]? = some (.forgetting jobIds)) :
    Inv ({ s with base := { s.base with src := s.base.src.forget jobIds } }.setEditor i none) := by
  refine h.setEditor he none (h.base.source _) (h.within.forget jobIds) rfl
    (fun id hid => (Finset.mem_sdiff.mp hid).1) fun id hid hacc => ?_
  obtain hrec | hpend := hacc
  · exact .inl hrec
  · exact absurd (List.mem_toFinset.mpr hpend) (Finset.mem_sdiff.mp hid).2

theorem step_base {a : Interest.Act} (ha : ∀ ids, a ≠ .forget ids) (hw : ∀ op, a ≠ .write op) :
    s.step o (.base a) = (s.base.step o a).map fun base => { s with base } := by
  cases a with
  | forget ids => exact absurd rfl (ha ids)
  | write op => exact absurd rfl (hw op)
  | respond | enter | call => rfl

/-- **Every step that has noted what it takes away** leaves every id of interest accounted for. -/
theorem step (h : Inv s) {a : Act} (hn : Noted s a) (hs : s.step o a = some s') : Inv s' := by
  cases a with
  | base a =>
    by_cases hw : ∃ op, a = .write op
    · obtain ⟨op, rfl⟩ := hw
      rw [State.step] at hs
      split at hs
      case isTrue hleaves =>
        obtain rfl := Option.some.inj hs
        exact h.write op fun id _ hheld =>
          .inl (holds_of_kept (.perform h.base.represented.placed hleaves) hheld)
      case isFalse => cases hs
    · have ha : ∀ ids, a ≠ .forget ids := by
        rintro ids rfl
        cases hs
      rw [step_base ha (not_exists.mp hw)] at hs
      obtain ⟨base, hb, rfl⟩ := Option.map_eq_some_iff.mp hs
      exact h.baseStep ha (not_exists.mp hw) hb
  | submitted js k jobId now =>
    obtain rfl := Option.some.inj hs
    exact h.submitted hn
  | takeBack js =>
    obtain rfl := Option.some.inj hs
    refine h.write (.deleteJobset js) fun id hid hheld => ?_
    obtain hrec | hin | hcall := accounted_of_write hn (.storeDeleteJobset js) hid hheld
    · exact .inl hrec
    · cases hin
    · exact .inr hcall
  | removeJobs js ks =>
    obtain rfl := Option.some.inj hs
    exact h.removeJobs js ks
  | removeJobset js =>
    obtain rfl := Option.some.inj hs
    exact h.begin _
  | edit js records policy force =>
    obtain rfl := Option.some.inj hs
    exact h.begin _
  | reset js keyed =>
    obtain rfl := Option.some.inj hs
    exact h.begin _
  | work i now generation =>
    obtain ⟨e, he, hs⟩ := Option.bind_eq_some_iff.mp hs
    obtain ⟨out, hw, rfl⟩ := Option.map_eq_some_iff.mp hs
    exact h.work he hw (hn e he)
  | refuse i =>
    obtain ⟨e, he, hs⟩ := Option.bind_eq_some_iff.mp hs
    split at hs
    case isTrue hrefusable =>
      obtain rfl := Option.some.inj hs
      refine h.setEditor he none h.base h.within rfl (fun _ hid => hid) fun id hid hacc => ?_
      obtain hrec | hpend := hacc
      · exact .inl hrec
      · cases e with
        | removing | editing => cases hpend
        | writing | resetting | forgetting => cases hrefusable
    case isFalse => cases hs
  | forget i =>
    obtain ⟨e, he, hs⟩ := Option.bind_eq_some_iff.mp hs
    split at hs
    case h_1 jobIds =>
      obtain rfl := Option.some.inj hs
      exact h.forget he
    case h_2 => cases hs

end Inv

/-! ## Every run -/

theorem inv_of_reachable {o : Options} {s : State} (h : (system o).ReachableUnder Noted s) :
    Inv s := by
  refine h.invariant (fun s hs => ?_) fun s a s' _ hi hn hs => hi.step hn hs
  obtain rfl : s = { base := { src := o.source } } := hs
  refine ⟨Interest.inv_of_reachable (o := o) (.init rfl), fun id elems he => ?_, fun id hid => ?_⟩
  · cases he
  · cases hid

/-- **No stale id stays in the source**: along the runs in which every step has noted what it takes
away, whenever no query and no operation is under way every id in the interest or the ledger of the
source is that of a record. -/
theorem holds_of_quiescent {o : Options} {s : State} (h : (system o).ReachableUnder Noted s)
    (hcalls : s.base.calls = []) (heditors : s.editors = []) :
    (∀ id ∈ s.base.src.interest, Holds s.store id) ∧
      ∀ id ∈ s.base.src.ledger.keys, Holds s.store id := by
  have hi := inv_of_reachable h
  have hinterest : ∀ id ∈ s.base.src.interest, Holds s.store id := by
    intro id hid
    obtain hrec | ⟨e, he, -⟩ | ⟨c, hc, -⟩ := hi.accounted id hid
    · exact hrec
    · rw [heditors] at he
      cases he
    · rw [hcalls] at hc
      cases hc
  refine ⟨hinterest, fun id hid => ?_⟩
  obtain ⟨elems, helems⟩ := Dict.mem_keys.mp hid
  exact hinterest id (hi.within id elems helems)

/-- A jobset with a job that is being submitted. -/
def launched (js k : String) (generation : ℕ) : List Act :=
  [.base (.write (.insertJobset 0 { jobsetId := js, intendedCount := 1 })),
    .base (.write (.addJobs 0 [{ jobsetId := js, jobKey := k, generation }])),
    .reset js [(k, "run")], .work 0 0 (generation + 1), .work 0 0 0, .forget 0]

/-- Two jobsets with a job each, both of which a query asks for. -/
def polled : List Act :=
  launched "j" "a" 0 ++ launched "k" "b" 2 ++
  [.submitted "j" "a" 7 0, .submitted "k" "b" 8 0,
    .base (.enter [7, 8, 9] "" none), .base (.call 0 .register), .base (.call 0 .leave),
    .base (.call 0 .list), .base (.call 0 .read), .base (.call 0 .read), .base (.call 0 .drop)]

/-- One of the jobsets is removed. -/
def removed : List Act := [.removeJobset "j", .work 0 0 0, .forget 0]

theorem holds_of_quiescent_removed : ∃ s, (system sampleOptions).ReachableUnder Noted s ∧
    s.base.src.interest = {8} ∧ Holds s.store 8 ∧ ¬Holds s.store 7 := by
  have hrun :
    ((system sampleOptions).runUnder (fun s a => Noted s a)
    { base := { src := sampleOptions.source } }
      (polled ++ removed)).bind (fun s => if s.base.src.interest = {8} ∧ ¬Holds s.store 7 ∧
        s.base.calls.isEmpty ∧ s.editors.isEmpty then some () else none) = some () := by
    decide +kernel
  obtain ⟨s, hs, hrest⟩ := Option.bind_eq_some_iff.mp hrun
  obtain ⟨⟨hinterest, hgone, hcalls, heditors⟩, -⟩ := Option.ite_none_right_eq_some.mp hrest
  have hreach := System.reachableUnder_of_runUnder (fun _ _ => of_decide_eq_true) (.init rfl) hs
  obtain ⟨hheld, -⟩ := holds_of_quiescent hreach (List.isEmpty_iff.mp hcalls)
    (List.isEmpty_iff.mp heditors)
  exact ⟨s, hreach, hinterest, hheld 8 (by rw [hinterest]; decide), hgone⟩

/-- `remove_jobset` has noted that the jobset has no id.  Then a submission ends with the id 7, and
a poll finds it with its record before the jobset is deleted. -/
def overtaken : List Act :=
  launched "j" "a" 0 ++ [.removeJobset "j", .submitted "j" "a" 7 0,
    .base (.enter [7] "j" (some ["a"])), .base (.call 0 .register), .base (.call 0 .leave),
    .base (.call 0 .list), .base (.call 0 .read), .base (.call 0 .drop), .work 0 0 0, .forget 0]

/-- The id stays of interest though no record holds it. -/
theorem not_holds_of_quiescent : ¬ ∀ (o : Options) (s : State), (system o).Reachable s →
    s.base.calls = [] → s.editors = [] → ∀ id ∈ s.base.src.interest, Holds s.store id := by
  intro h
  have hrun : ((system sampleOptions).run { base := { src := sampleOptions.source } }
      overtaken).bind (fun s => if 7 ∈ s.base.src.interest ∧ ¬Holds s.store 7 ∧
        s.base.calls.isEmpty ∧ s.editors.isEmpty then some () else none) = some () := by
    decide +kernel
  obtain ⟨s, hs, hrest⟩ := Option.bind_eq_some_iff.mp hrun
  obtain ⟨⟨hinterest, hgone, hcalls, heditors⟩, -⟩ := Option.ite_none_right_eq_some.mp hrest
  exact hgone (h sampleOptions s (System.reachable_of_run (.init rfl) hs)
    (List.isEmpty_iff.mp hcalls) (List.isEmpty_iff.mp heditors) 7 hinterest)

end Lsfmgr.Monitor.Stale
