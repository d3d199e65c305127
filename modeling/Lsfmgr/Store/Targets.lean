import Mathlib
import Lsfmgr.Store.Memory

/-!
# Store/Targets — which records a command names

`submit(only=…)` and `remove_jobs` take references — a job key or a job id — and resolve them
against the store.  What the submission rests on is `nodup_submitTargets`: a submission never names
a job twice, so its list of keys has no repetition.
-/

namespace Lsfmgr

open Machinery

/-- A reference to a job: its key, or its LSF id. -/
inductive Ref
  | key (k : String)
  | id (n : ℕ)
  deriving DecidableEq, Repr

/-- Why a command on references is refused. -/
inductive CommandError
  | store (e : StoreError)
  | notFound (r : Ref)
  /-- The id belongs to array elements only; there is no parent record. -/
  | elementOnly (id : ℕ)
  /-- An array element is not submitted on its own. -/
  | elementSubmit (jobKey : String)
  | nothingToSubmit
  | busy (jobKeys : List String)
  deriving DecidableEq, Repr

/-- `by_jid.get(id)`: parents only, the last one with that id. -/
def parentOf (jobs : List JobRecord) (id : ℕ) : Option JobRecord :=
  (jobs.filter fun r => r.jobId = some id && r.arrayIndex = none).getLast?

/-- One reference of `resolve_refs`. -/
def findRef (jobs : List JobRecord) (byKey : String → Option JobRecord) :
    Ref → Except CommandError JobRecord
  | .id n =>
    match parentOf jobs n with
    | some rec => .ok rec
    | none =>
      if jobs.any fun r => r.jobId = some n then .error (.elementOnly n)
      else .error (.notFound (.id n))
  | .key k =>
    match byKey k with
    | some rec => .ok rec
    | none => .error (.notFound (.key k))

/-- The loop of `resolve_refs`: every reference in turn, a job named before is skipped. -/
def resolveLoop (jobs : List JobRecord) (byKey : String → Option JobRecord) :
    List String → List Ref → Except CommandError (List JobRecord)
  | _, [] => .ok []
  | seen, ref :: refs =>
    match findRef jobs byKey ref with
    | .error e => .error e
    | .ok rec =>
      if rec.jobKey ∈ seen then resolveLoop jobs byKey seen refs
      else (resolveLoop jobs byKey (rec.jobKey :: seen) refs).map (rec :: ·)

def Ref.isId : Ref → Bool
  | id _ => true
  | key _ => false

def resolveRefs (s : InMemoryStore) (js : String) (refs : List Ref) :
    Except CommandError (List JobRecord) :=
  match s.getJobset js with
  | .error e => .error (.store e)
  | .ok _ =>
    if refs.any Ref.isId then
      match s.getJobs js with
      | .error e => .error (.store e)
      | .ok jobs => resolveLoop jobs (fun k => s.job? js k) [] refs
    else resolveLoop [] (fun k => s.job? js k) [] refs

/-- The last two checks of `submit_targets`. -/
def checkTargets (targets : List JobRecord) : Except CommandError (List JobRecord) :=
  match targets.find? fun r => r.arrayIndex.isSome with
  | some r => .error (.elementSubmit r.jobKey)
  | none =>
    if targets = [] then .error .nothingToSubmit
    else
      match targets.filter fun r => !r.state.isInactive with
      | [] => .ok targets
      | busy => .error (.busy (busy.map (·.jobKey)))

/-- `submit_targets`: every job of the jobset that is no array element, or the named ones; all of
them inactive. -/
def submitTargets (s : InMemoryStore) (js : String) (only : Option (List Ref)) :
    Except CommandError (List JobRecord) :=
  match only with
  | none =>
    match s.getJobs js with
    | .error e => .error (.store e)
    | .ok jobs => checkTargets (jobs.filter fun r => r.arrayIndex.isNone)
  | some refs =>
    match resolveRefs s js refs with
    | .error e => .error e
    | .ok targets => checkTargets targets

theorem checkTargets_ok {targets out : List JobRecord} (h : checkTargets targets = .ok out) :
    out = targets ∧ out ≠ [] := by
  unfold checkTargets at h
  split at h
  case h_1 => cases h
  case h_2 =>
    split at h
    case isTrue => cases h
    case isFalse hne =>
      split at h
      · obtain rfl := Except.ok.inj h
        exact ⟨rfl, hne⟩
      · cases h

theorem nodup_resolveLoop {jobs : List JobRecord} {byKey : String → Option JobRecord} :
    ∀ {seen : List String} {refs : List Ref} {out : List JobRecord},
      resolveLoop jobs byKey seen refs = .ok out →
      (out.map (·.jobKey)).Nodup ∧ ∀ r ∈ out, r.jobKey ∉ seen
  | _, [], _, h => by
      obtain rfl := Except.ok.inj h
      simp
  | seen, ref :: refs, out, h => by
      rw [resolveLoop] at h
      split at h
      case h_1 => cases h
      case h_2 rec _ =>
        split at h
        case isTrue => exact nodup_resolveLoop h
        case isFalse hseen =>
          rcases hr : resolveLoop jobs byKey (rec.jobKey :: seen) refs with e | rest
          · rw [hr] at h; cases h
          · rw [hr] at h
            obtain rfl := Except.ok.inj h
            obtain ⟨hnd, hns⟩ := nodup_resolveLoop hr
            refine ⟨?_, fun r hm => ?_⟩
            · rw [List.map_cons, List.nodup_cons]
              refine ⟨fun hmem => ?_, hnd⟩
              obtain ⟨r, hrm, hrk⟩ := List.mem_map.mp hmem
              exact hns r hrm (hrk ▸ List.mem_cons_self)
            · rcases List.mem_cons.mp hm with rfl | hm
              · exact hseen
              · exact fun hs => hns r hm (List.mem_cons_of_mem _ hs)

/-- The records of a jobset, in order, carry the keys of its table. -/
theorem map_jobKey_values {s : InMemoryStore} (hp : s.Placed) {js : String}
    {jobs : Dict String JobRecord} (hj : s.jobs.get? js = some jobs) :
    jobs.values.map (·.jobKey) = jobs.keys := by
  rw [Dict.values, Dict.keys, List.map_map]
  refine List.map_congr_left fun e he => ?_
  have hget : s.job? js e.1 = some e.2 := by
    simpa [InMemoryStore.job?, hj] using Dict.get?_eq_some.mpr he
  exact (hp.own _ _ _ hget).2

/-- **A submission names every job at most once**, and at least one. -/
theorem nodup_submitTargets {s : InMemoryStore} (hp : s.Placed) {js : String}
    {only : Option (List Ref)} {targets : List JobRecord}
    (h : submitTargets s js only = .ok targets) :
    (targets.map (·.jobKey)).Nodup ∧ targets ≠ [] := by
  unfold submitTargets at h
  split at h
  case h_1 =>
    split at h
    case h_1 => cases h
    case h_2 jobs hjobs =>
      obtain ⟨rfl, hne⟩ := checkTargets_ok h
      refine ⟨?_, hne⟩
      rw [InMemoryStore.getJobs] at hjobs
      split at hjobs
      case isFalse => cases hjobs
      case isTrue =>
        obtain rfl := Except.ok.inj hjobs
        refine (List.filter_sublist.map _).nodup ?_
        rcases hj : s.jobs.get? js with _ | d
        · simp
        · simpa [map_jobKey_values hp hj] using d.nodup_keys
  case h_2 refs =>
    split at h
    case h_1 => cases h
    case h_2 t ht =>
      obtain ⟨rfl, hne⟩ := checkTargets_ok h
      refine ⟨?_, hne⟩
      unfold resolveRefs at ht
      split at ht
      · cases ht
      · split at ht
        · split at ht
          · cases ht
          · exact (nodup_resolveLoop ht).1
        · exact (nodup_resolveLoop ht).1

/-! ## What is named is stored -/

theorem job?_of_getJobs {s : InMemoryStore} (hp : s.Placed) {js : String} {jobs : List JobRecord}
    (h : s.getJobs js = .ok jobs) : ∀ r ∈ jobs, s.job? js r.jobKey = some r := by
  intro r hr
  rw [InMemoryStore.getJobs] at h
  split at h
  case isFalse => cases h
  case isTrue =>
    obtain rfl := Except.ok.inj h
    rcases hj : s.jobs.get? js with _ | d
    · simp [hj] at hr
    · rw [hj, Option.getD_some] at hr
      obtain ⟨k, hk⟩ := Dict.mem_values.mp hr
      have hget : s.job? js k = some r := by simpa [InMemoryStore.job?, hj] using hk
      rwa [(hp.own _ _ _ hget).2]

theorem parentOf_mem {jobs : List JobRecord} {id : ℕ} {r : JobRecord}
    (h : parentOf jobs id = some r) :
    r ∈ jobs :=
  List.mem_of_mem_filter (List.mem_of_getLast? h)

theorem findRef_ok {p : JobRecord → Prop} {jobs : List JobRecord}
    {byKey : String → Option JobRecord}
    (hjobs : ∀ r ∈ jobs, p r) (hkey : ∀ k r, byKey k = some r → p r) {ref : Ref} {r : JobRecord}
    (h : findRef jobs byKey ref = .ok r) : p r := by
  cases ref with
  | id n =>
    rw [findRef] at h
    split at h
    case h_1 hparent =>
      obtain rfl := Except.ok.inj h
      exact hjobs _ (parentOf_mem hparent)
    case h_2 => split at h <;> cases h
  | key k =>
    rw [findRef] at h
    split at h
    case h_1 hget =>
      obtain rfl := Except.ok.inj h
      exact hkey k _ hget
    case h_2 => cases h

theorem resolveLoop_ok {p : JobRecord → Prop} {jobs : List JobRecord}
    {byKey : String → Option JobRecord}
    (hjobs : ∀ r ∈ jobs, p r) (hkey : ∀ k r, byKey k = some r → p r) :
    ∀ {seen : List String} {refs : List Ref} {out : List JobRecord},
      resolveLoop jobs byKey seen refs = .ok out → ∀ r ∈ out, p r
  | _, [], _, h => by
      obtain rfl := Except.ok.inj h
      simp
  | seen, ref :: refs, out, h => by
      rw [resolveLoop] at h
      split at h
      case h_1 => cases h
      case h_2 rec href =>
        split at h
        case isTrue => exact resolveLoop_ok hjobs hkey h
        case isFalse =>
          obtain ⟨rest, hrest, rfl⟩ := except_map_eq_ok.mp h
          exact List.forall_mem_cons.mpr ⟨findRef_ok hjobs hkey href,
            resolveLoop_ok hjobs hkey hrest⟩

/-- **What a submission names is in the store**, as it is there. -/
theorem job?_of_submitTargets {s : InMemoryStore} (hp : s.Placed) {js : String}
    {only : Option (List Ref)}
    {targets : List JobRecord} (h : submitTargets s js only = .ok targets) :
    ∀ r ∈ targets, s.job? js r.jobKey = some r := by
  have hkey : ∀ k r, s.job? js k = some r → s.job? js r.jobKey = some r := fun k r hr => by
    rwa [(hp.own _ _ _ hr).2]
  unfold submitTargets at h
  split at h
  case h_1 =>
    split at h
    case h_1 => cases h
    case h_2 jobs hjobs =>
      obtain ⟨rfl, -⟩ := checkTargets_ok h
      exact fun r hr => job?_of_getJobs hp hjobs r (List.mem_of_mem_filter hr)
  case h_2 refs =>
    split at h
    case h_1 => cases h
    case h_2 t ht =>
      obtain ⟨rfl, -⟩ := checkTargets_ok h
      unfold resolveRefs at ht
      split at ht
      case h_1 => cases ht
      case h_2 =>
        split at ht
        case isTrue =>
          split at ht
          case h_1 => cases ht
          case h_2 jobs hjobs => exact resolveLoop_ok (job?_of_getJobs hp hjobs) hkey ht
        case isFalse => exact resolveLoop_ok (by simp) hkey ht

end Lsfmgr
