import Mathlib
import Lsfmgr.Store.Revisions

/-!
# Store/Shape — which writes change the key sets

`Touched F s s'`: the jobsets are the same, and outside the jobsets `F` so are their keys.  A
transition touches nothing, whatever it is called with; an insertion or a deletion touches its own
jobset.  A jobset lies under its own id (`Named`), so a listing of the jobsets names them all.
-/

namespace Lsfmgr

open Machinery

namespace InMemoryStore

/-! ## Which keys a write touches -/

/-- The number of records of a jobset. -/
def recordCount (s : InMemoryStore) (js : String) : ℕ := ((s.jobs.get? js).getD ∅).keys.length

/-- The two stores have the same jobsets and, outside `F`, the same keys. -/
structure Touched (F : Set String) (s s' : InMemoryStore) : Prop where
  jobsets : s'.jobsets = s.jobsets
  keys : ∀ js k, js ∉ F → ((s'.job? js k).isSome ↔ (s.job? js k).isSome)

section Touched

variable {F : Set String} {s s' s'' : InMemoryStore} {js k : String}

theorem Touched.refl (s : InMemoryStore) : Touched F s s := ⟨rfl, fun _ _ _ => Iff.rfl⟩

theorem Touched.trans (h : Touched F s s') (h' : Touched F s' s'') : Touched F s s'' :=
  ⟨h'.jobsets.trans h.jobsets, fun js k hjs => (h'.keys js k hjs).trans (h.keys js k hjs)⟩

theorem Touched.mono {F' : Set String} (h : Touched F s s') (hF : F ⊆ F') : Touched F' s s' :=
  ⟨h.jobsets, fun js k hjs => h.keys js k fun hmem => hjs (hF hmem)⟩

theorem mem_keys_iff : k ∈ ((s.jobs.get? js).getD ∅).keys ↔ (s.job? js k).isSome := by
  rw [job?]
  rcases s.jobs.get? js with _ | jobs
  · simp
  · simp [Dict.mem_keys, Option.isSome_iff_exists]

theorem Touched.recordCount (h : Touched F s s') (hjs : js ∉ F) :
    s'.recordCount js = s.recordCount js := by
  refine List.Perm.length_eq ((List.perm_ext_iff_of_nodup (Dict.nodup_keys _)
    (Dict.nodup_keys _)).mpr fun k => ?_)
  rw [mem_keys_iff, mem_keys_iff]
  exact h.keys js k hjs

/-- One write touches its own jobset. -/
theorem Wrote.touched {v : Option JobRecord} (h : Wrote s js k v s') : Touched {js} s s' where
  jobsets := h.jobsets
  keys js' k' hne := by
    rw [h.job?, if_neg fun hc => hne hc.1]

/-- Writing over a record touches nothing. -/
theorem Wrote.rewrote {old new : JobRecord} (h : Wrote s js k (some new) s')
    (hold : s.job? js k = some old) : Touched ∅ s s' where
  jobsets := h.jobsets
  keys js' k' _ := by
    rw [h.job?]
    split
    case isTrue hc => simp [hc.1, hc.2, hold]
    case isFalse => exact Iff.rfl

theorem Rewrites.touched {news : List JobRecord} (h : Rewrites s news s') : Touched ∅ s s' := by
  induction h with
  | nil s => exact Touched.refl s
  | cons hold _ hw _ ih => exact (hw.rewrote hold).trans ih

theorem transition_touched (hp : s.Placed) {now : Time} {ns : Option JobState}
    {guard : Option Guard} {fields : List Field} {out : Option JobRecord}
    (h : s.transition now js k ns guard fields = .ok (out, s')) : Touched ∅ s s' := by
  obtain ⟨-, rfl⟩ | ⟨old, new, -, hold, -, -, hw⟩ := transition_ok hp h
  · exact Touched.refl s'
  · exact hw.rewrote hold

theorem transitionMany_touched (now : Time) (js : String) (specs : List TransitionSpec)
    (hp : s.Placed) : Touched ∅ s (s.transitionMany now js specs).2 := by
  obtain ⟨news, hchain, -⟩ := hp.raisesByOne.batch now js specs
  exact hchain.touched

theorem putAll_touched (now : Time) {records : List JobRecord} (hp : s.Placed)
    (hjs : ∀ r ∈ records, r.jobsetId = js) : Touched {js} s (s.putAll now records).2 := by
  induction records generalizing s with
  | nil => exact Touched.refl s
  | cons r records ih =>
    obtain ⟨rfl, hrest⟩ := List.forall_mem_cons.mp hjs
    rw [putAll]
    rcases hj : s.jobs.get? r.jobsetId with _ | jobs
    · simp only [putRec, hj]
      exact Touched.refl s
    · obtain ⟨s₁, hs₁, hw⟩ := putRec_wrote (s := s)
        (r := { r with updatedAt := some (r.updatedAt.getD now) }) (Dict.mem_keys.mpr ⟨jobs, hj⟩)
      simp only [hs₁]
      exact hw.touched.trans (ih (hw.placed hp) hrest)

theorem storeDeleteJobs_touched (js : String) (ks : List String) :
    Touched {js} s (s.storeDeleteJobs js ks).2 := by
  induction ks generalizing s with
  | nil => exact Touched.refl s
  | cons k ks ih =>
    rw [storeDeleteJobs]
    rcases s.dropRec_cases js k with ⟨-, hdrop⟩ | ⟨old, s₁, -, hdrop, hw⟩
    · simp only [hdrop]
      exact ih
    · simp only [hdrop]
      exact hw.touched.trans ih

/-- Replacing a record that is there does not raise. -/
theorem updateJob_succeeds (now : Time) {r old : JobRecord}
    (h : s.job? r.jobsetId r.jobKey = some old) : ∃ r' s', s.updateJob now r = .ok (r', s') := by
  obtain ⟨s₁, hs₁, -⟩ := putRec_wrote (s := s) (r := r.rewrite now r.state old.revision [])
    (show r.jobsetId ∈ s.jobs.keys from mem_jobs_keys_of_job? h)
  refine ⟨r.rewrite now r.state old.revision [], s₁, ?_⟩
  simp only [updateJob, replaceRec, h, List.findSome?_nil, Option.getD_none]
  rw [hs₁]
  rfl

/-- Adding a record under a free key of a jobset that is there does not raise. -/
theorem storeAddJob_succeeds (now : Time) (hp : s.Placed) {r : JobRecord}
    (hjs : r.jobsetId ∈ s.jobsets.keys) (h : s.job? r.jobsetId r.jobKey = none) :
    ∃ r' s', s.storeAddJob now r = .ok (r', s') := by
  obtain ⟨jobs, hj⟩ := Dict.mem_keys.mp ((hp.jobs_iff _).mpr hjs)
  have hfree : r.jobKey ∉ jobs.keys := Dict.get?_eq_none.mp (by simpa [job?, hj] using h)
  obtain ⟨s₁, hs₁, -⟩ := putRec_wrote (s := s)
    (r := { r with updatedAt := some (r.updatedAt.getD now) }) (Dict.mem_keys.mpr ⟨jobs, hj⟩)
  refine ⟨{ r with updatedAt := some (r.updatedAt.getD now) }, s₁, ?_⟩
  simp only [storeAddJob, if_pos hjs, hj, if_neg hfree]
  rw [hs₁]
  rfl

end Touched

/-! ## Where a jobset lies -/

/-- Every jobset lies under its own id. -/
def Named (s : InMemoryStore) : Prop := ∀ js r, s.jobsets.get? js = some r → r.jobsetId = js

section Named

variable {s s' : InMemoryStore}

theorem named_empty : Named {} := fun _ _ h => by simp at h

theorem Named.congr (h : s.Named) (heq : s'.jobsets = s.jobsets) : s'.Named := by
  intro js r hr
  rw [heq] at hr
  exact h js r hr

/-- A listing names every jobset. -/
theorem Named.mem_listJobsets (h : s.Named) {js : String} (hjs : js ∈ s.jobsets.keys) :
    js ∈ s.listJobsets.map (·.jobsetId) := by
  obtain ⟨r, hr⟩ := Dict.mem_keys.mp hjs
  exact List.mem_map.mpr ⟨r, Dict.mem_values.mpr ⟨js, hr⟩, h js r hr⟩

theorem Named.set (h : s.Named) (record : JobSetRecord)
    (heq : s'.jobsets = s.jobsets.set record.jobsetId record) : s'.Named := by
  intro js r hr
  rw [heq, Dict.get?_set] at hr
  split at hr
  case isTrue hjs => rw [hjs, ← Option.some.inj hr]
  case isFalse => exact h js r hr

theorem putAll_jobsets (now : Time) (records : List JobRecord) :
    (s.putAll now records).2.jobsets = s.jobsets := by
  induction records generalizing s with
  | nil => rfl
  | cons r records ih =>
    rw [putAll]
    rcases hj : s.jobs.get? r.jobsetId with _ | jobs
    · simp only [putRec, hj]
    · obtain ⟨s₁, hs₁, hw⟩ := putRec_wrote (s := s)
        (r := { r with updatedAt := some (r.updatedAt.getD now) }) (Dict.mem_keys.mpr ⟨jobs, hj⟩)
      simp only [hs₁]
      exact ih.trans hw.jobsets

theorem Named.single {α : Type} (h : s.Named) {out : Except StoreError (α × InMemoryStore)}
    (hok : ∀ a s', out = .ok (a, s') → s'.Named) : (s.single out).2.Named := by
  rcases out with e | ⟨a, s'⟩
  · exact h
  · exact hok a s' rfl

/-- **Every operation leaves the jobsets where they belong.** -/
theorem Named.perform (h : s.Named) (hp : s.Placed) (op : Op) : (s.perform op).2.Named := by
  cases op with
  | insertJobset now record =>
    refine h.single fun out s' hs => ?_
    rw [storeInsertJobset] at hs
    split at hs
    case isTrue => cases hs
    case isFalse =>
      obtain ⟨-, rfl⟩ := Prod.mk.inj (Except.ok.inj hs)
      exact h.set { record with createdAt := _ } rfl
  | updateJobset record =>
    refine h.single fun out s' hs => ?_
    rw [InMemoryStore.updateJobset] at hs
    split at hs
    case isTrue =>
      obtain ⟨-, rfl⟩ := Prod.mk.inj (Except.ok.inj hs)
      exact h.set record rfl
    case isFalse => cases hs
  | deleteJobset js =>
    intro js' r hr
    simp only [InMemoryStore.perform, InMemoryStore.storeDeleteJobset, Dict.get?_erase] at hr
    split at hr
    case isTrue => cases hr
    case isFalse => exact h js' r hr
  | addJob now record =>
    exact h.single fun _ _ hs => h.congr (storeAddJob_ok hs).2.2.jobsets
  | addJobs now records =>
    rw [InMemoryStore.perform, batch_snd, storeAddJobs]
    split
    · exact h
    · exact h.congr (putAll_jobsets now records)
  | deleteJob js k =>
    refine h.single fun r s' hs => ?_
    rw [storeDeleteJob] at hs
    rcases s.dropRec_cases js k with ⟨-, hdrop⟩ | ⟨old, s₁, -, hdrop, hw⟩
    · rw [hdrop] at hs
      cases hs
    · rw [hdrop] at hs
      obtain ⟨-, rfl⟩ := Prod.mk.inj (Except.ok.inj hs)
      exact h.congr hw.jobsets
  | deleteJobs js ks => exact h.congr (storeDeleteJobs_touched js ks).jobsets
  | updateJob now record =>
    refine h.single fun r s' hs => ?_
    obtain ⟨old, -, -, hw⟩ := updateJob_ok hs
    exact h.congr hw.jobsets
  | transition now js k ns guard fields =>
    exact h.single fun _ _ hs => h.congr (transition_touched hp hs).jobsets
  | transitionMany now js specs =>
    rw [InMemoryStore.perform, batch_snd]
    exact h.congr (transitionMany_touched now js specs hp).jobsets

end Named

end InMemoryStore

end Lsfmgr
