import Mathlib
import Lsfmgr.Jobset.Summary

/-!
# Jobset/Quiet — what an operation of the manager does when it runs alone

No worker writes in between: a store call is then a function of the store.  `Became` says what a
write makes of the records of its jobset, order included; `Settled` adds what `syncIntendedCount`
makes of the jobset.
-/

namespace Lsfmgr

open Machinery

namespace InMemoryStore

/-! ## The records of a jobset -/

/-- The records of a jobset in insertion order. -/
def jobsOf (s : InMemoryStore) (js : String) : Dict String JobRecord := (s.jobs.get? js).getD ∅

theorem get?_jobsOf (s : InMemoryStore) (js k : String) : (s.jobsOf js).get? k = s.job? js k := by
  rw [jobsOf, job?]
  rcases s.jobs.get? js with _ | jobs <;> rfl

theorem recordCount_eq (s : InMemoryStore) (js : String) :
    s.recordCount js = (s.jobsOf js).keys.length := rfl

theorem named_afterOps (ops : List Op) : (afterOps ops).Named := by
  suffices ∀ s : InMemoryStore, s.Represented → s.Named →
      (ops.foldl (fun s op => (s.perform op).2) s).Named from this {} represented_empty named_empty
  induction ops with
  | nil => exact fun s _ h => h
  | cons op ops ih => exact fun s hr h => ih _ (hr.perform op) (h.perform hr.placed op)

/-- A jobset that is there has its records in the table. -/
theorem Placed.jobs_get? {s : InMemoryStore} (hp : s.Placed) {js : String}
    (hjs : js ∈ s.jobsets.keys) : s.jobs.get? js = some (s.jobsOf js) := by
  obtain ⟨jobs, hj⟩ := Dict.mem_keys.mp ((hp.jobs_iff js).mpr hjs)
  rw [jobsOf, hj]
  rfl

/-- `s'` is `s` with `d` as the records of one jobset. -/
structure Became (s s' : InMemoryStore) (js : String) (d : Dict String JobRecord) : Prop where
  jobs : ∀ js', s'.jobs.get? js' = if js' = js then some d else s.jobs.get? js'
  jobsets : s'.jobsets = s.jobsets
  represented : s'.Represented

section Became

variable {s s' s'' : InMemoryStore} {js k : String} {d e : Dict String JobRecord} {now : Time}

theorem Became.refl (h : s.Represented) (hj : s.jobs.get? js = some d) : Became s s js d where
  jobs js' := by
    split
    case isTrue heq => rw [heq, hj]
    case isFalse => rfl
  jobsets := rfl
  represented := h

theorem Became.trans (h : Became s s' js d) (h' : Became s' s'' js e) : Became s s'' js e where
  jobs js' := by
    rw [h'.jobs, h.jobs]
    split <;> rfl
  jobsets := h'.jobsets.trans h.jobsets
  represented := h'.represented

theorem Became.jobsOf (h : Became s s' js d) (js' : String) :
    s'.jobsOf js' = if js' = js then d else s.jobsOf js' := by
  rw [InMemoryStore.jobsOf, h.jobs]
  split <;> rfl

theorem Became.job? (h : Became s s' js d) (k : String) : s'.job? js k = d.get? k := by
  rw [← get?_jobsOf, h.jobsOf, if_pos rfl]

theorem putRec_became (h : s.Represented) {r : JobRecord} (hj : s.jobs.get? r.jobsetId = some d) :
    ∃ s', s.putRec r = .ok s' ∧ Became s s' r.jobsetId (d.set r.jobKey r) := by
  obtain ⟨-, counts, hc, ht⟩ := h.counts_get hj
  obtain ⟨counts₁, hc₁, -, -⟩ := uncount_counts (k := r.jobKey) hc ht
  have hs := putRec_eq hj rfl hc₁
  have hjobs : (s.uncount r.jobsetId (d.get? r.jobKey)).jobs = s.jobs := by
    rcases d.get? r.jobKey with _ | old <;> simp [uncount]
  have hjobsets : (s.uncount r.jobsetId (d.get? r.jobKey)).jobsets = s.jobsets := by
    rcases d.get? r.jobKey with _ | old <;> simp [uncount]
  exact ⟨_, hs, fun js' => by simp only [hjobs, Dict.get?_set], hjobsets, h.putRec hs⟩

/-- Replacing a record that is there, in place. -/
theorem updateJob_became (now : Time) (h : s.Represented) {r old : JobRecord}
    (hold : s.job? r.jobsetId r.jobKey = some old) :
    ∃ s', s.updateJob now r = .ok (r.rewrite now r.state old.revision [], s') ∧
      Became s s' r.jobsetId
        ((s.jobsOf r.jobsetId).set r.jobKey (r.rewrite now r.state old.revision [])) := by
  have hj := h.placed.jobs_get? ((h.placed.jobs_iff _).mp (mem_jobs_keys_of_job? hold))
  obtain ⟨s', hs', hb⟩ := putRec_became (r := r.rewrite now r.state old.revision []) h hj
  refine ⟨s', ?_, hb⟩
  simp only [updateJob, replaceRec, hold, List.findSome?_nil, Option.getD_none]
  rw [hs']
  rfl

/-- Adding a record under a free key, at the end. -/
theorem storeAddJob_became (now : Time) (h : s.Represented) {r : JobRecord}
    (hjs : r.jobsetId ∈ s.jobsets.keys) (hfree : s.job? r.jobsetId r.jobKey = none) :
    ∃ s', s.storeAddJob now r
        = .ok ({ r with updatedAt := some (r.updatedAt.getD now) }, s') ∧
      Became s s' r.jobsetId ((s.jobsOf r.jobsetId).set r.jobKey
        { r with updatedAt := some (r.updatedAt.getD now) }) := by
  have hj := h.placed.jobs_get? hjs
  have hk : r.jobKey ∉ (s.jobsOf r.jobsetId).keys :=
    Dict.get?_eq_none.mp ((get?_jobsOf s _ _).trans hfree)
  obtain ⟨s', hs', hb⟩ := putRec_became
    (r := { r with updatedAt := some (r.updatedAt.getD now) }) h hj
  refine ⟨s', ?_, hb⟩
  simp only [storeAddJob, if_pos hjs, hj, if_neg hk]
  rw [hs']
  rfl

theorem dropRec_became (h : s.Represented) {old : JobRecord} (hold : s.job? js k = some old) :
    ∃ s', s.dropRec js k = (some old, s') ∧ Became s s' js ((s.jobsOf js).erase k) := by
  have hj := h.placed.jobs_get? ((h.placed.jobs_iff _).mp (mem_jobs_keys_of_job? hold))
  have hk : (s.jobsOf js).get? k = some old := (get?_jobsOf s js k).trans hold
  have hr := h.dropRec js k
  have hs : s.dropRec js k = (some old, { s.countDel js old.state with
      jobs := (s.countDel js old.state).jobs.set js ((s.jobsOf js).erase k) }) := by
    simp only [dropRec, hj, hk]
  rw [hs] at hr
  exact ⟨_, hs, fun js' => by simp [Dict.get?_set], by simp, hr⟩

/-- **Deleting records that are there**: they are returned in the order asked for, and the others
stay in theirs. -/
theorem storeDeleteJobs_became (h : s.Represented) (hjs : js ∈ s.jobsets.keys)
    {targets : List JobRecord} (hnd : (targets.map (·.jobKey)).Nodup)
    (hin : ∀ r ∈ targets, s.job? js r.jobKey = some r) :
    ∃ s', s.storeDeleteJobs js (targets.map (·.jobKey)) = (targets, s') ∧
      Became s s' js ((s.jobsOf js).filter fun k _ => k ∉ targets.map (·.jobKey)) := by
  induction targets generalizing s with
  | nil =>
    have hall : (s.jobsOf js).filter (fun k _ => k ∉ ([] : List JobRecord).map (·.jobKey))
        = s.jobsOf js := Dict.ext_entries (List.filter_eq_self.mpr fun e _ => by simp)
    refine ⟨s, rfl, ?_⟩
    rw [hall]
    exact Became.refl h (h.placed.jobs_get? hjs)
  | cons r targets ih =>
    rw [List.map_cons, List.nodup_cons] at hnd
    obtain ⟨hr, hrest⟩ := List.forall_mem_cons.mp hin
    obtain ⟨s₁, hs₁, hb₁⟩ := dropRec_became h hr
    obtain ⟨s', hs', hb'⟩ := ih (s := s₁) hb₁.represented (by rw [hb₁.jobsets]; exact hjs) hnd.2
      fun r' hr' => by
        have hne : r'.jobKey ≠ r.jobKey := fun heq =>
          hnd.1 (List.mem_map.mpr ⟨r', hr', heq⟩)
        rw [hb₁.job?, Dict.get?_erase_of_ne _ hne, get?_jobsOf]
        exact hrest r' hr'
    refine ⟨s', by simp only [List.map_cons, storeDeleteJobs, hs₁, hs'], ?_⟩
    have hd : (s₁.jobsOf js).filter (fun k _ => k ∉ targets.map (·.jobKey))
        = (s.jobsOf js).filter fun k _ => k ∉ (r :: targets).map (·.jobKey) := by
      refine Dict.ext_entries ?_
      rw [hb₁.jobsOf, if_pos rfl]
      change ((s.jobsOf js).entries.filter _).filter _ = (s.jobsOf js).entries.filter _
      rw [List.filter_filter]
      refine List.filter_congr fun e _ => ?_
      simp only [List.map_cons, List.mem_cons, not_or]
      by_cases he : e.1 = r.jobKey <;> simp [he]
    rw [← hd]
    exact hb₁.trans hb'

end Became

/-! ## The jobset beside its records -/

/-- **The records of one jobset became `d`, and its count their number**; everything else is as it
was. -/
structure Settled (s s' : InMemoryStore) (js : String) (d : Dict String JobRecord) : Prop where
  jobsOf : ∀ js', s'.jobsOf js' = if js' = js then d else s.jobsOf js'
  jobsetIds : s'.jobsets.keys = s.jobsets.keys
  jobsets : ∀ js', s'.jobsets.get? js' = if js' = js
    then (s.jobsets.get? js).map fun r => { r with intendedCount := d.keys.length }
    else s.jobsets.get? js'

end InMemoryStore

namespace Jobset

open InMemoryStore (Became Settled)

/-! ## Programs without workers -/

/-- The manager alone. -/
def quiet (s : InMemoryStore) : World := { store := s }

section Quiet

variable {α β : Type} {s s' : InMemoryStore} {js : String}

theorem query_quiet (f : InMemoryStore → Except StoreError α) (s : InMemoryStore) :
    query f (quiet s) = ((f s).mapError .store, quiet s) := rfl

theorem query_ok {f : InMemoryStore → Except StoreError α} {a : α} (h : f s = .ok a) :
    query f (quiet s) = (.ok a, quiet s) := by
  rw [query_quiet, h]
  rfl

theorem query_error {f : InMemoryStore → Except StoreError α} {e : StoreError}
    (h : f s = .error e) : query f (quiet s) = (.error (.store e), quiet s) := by
  rw [query_quiet, h]
  rfl

theorem call_ok {f : InMemoryStore → Except StoreError α × InMemoryStore} {a : α}
    (h : f s = (.ok a, s')) : call f (quiet s) = (.ok a, quiet s') := by
  have hrun : call f (quiet s) = ((f s).1.mapError ManagerError.store, quiet (f s).2) := rfl
  rw [hrun, h]
  rfl

theorem update_ok {f : InMemoryStore → Except StoreError (α × InMemoryStore)} {a : α}
    (h : f s = .ok (a, s')) : update f (quiet s) = (.ok a, quiet s') := by
  refine call_ok ?_
  rw [h]

theorem bind_ok {m : Manager α} {f : α → Manager β} {w w' : World} {a : α}
    (h : m w = (.ok a, w')) : (m >>= f) w = f a w' := by
  simp only [Bind.bind, h]

theorem bind_error {m : Manager α} {f : α → Manager β} {w w' : World} {e : ManagerError}
    (h : m w = (.error e, w')) : (m >>= f) w = (.error e, w') := by
  simp only [Bind.bind, h]

theorem check_quiet (x : Except ManagerError α) (w : World) :
    (Prog.ofExcept x : Manager α) w = (x, w) := rfl

/-- A lookup by keys cannot raise. -/
theorem lookup_quiet (s : InMemoryStore) (js : String) (ks : List String) :
    (query fun s => .ok (s.getJobsByKeys js ks)) (quiet s) =
    (.ok (s.getJobsByKeys js ks), quiet s) :=
  rfl

theorem getJobset_error (h : js ∉ s.jobsets.keys) :
    s.getJobset js = .error (.jobsetNotFound js) := by
  rw [InMemoryStore.getJobset, Dict.get?_eq_none.mpr h]

/-- **`syncIntendedCount` sets the count right** after the records of the jobset were written. -/
theorem syncIntendedCount_settled {d : Dict String JobRecord} (hb : Became s s' js d)
    (hn : s.Named) (hjs : js ∈ s.jobsets.keys) :
    ∃ s'', syncIntendedCount js (quiet s') = (.ok (), quiet s'') ∧ Settled s s'' js d := by
  obtain ⟨r, hr⟩ := Dict.mem_keys.mp hjs
  have hr' : s'.jobsets.get? js = some r := by rw [hb.jobsets]; exact hr
  have hid : r.jobsetId = js := hn js r hr
  have hcount : s'.countJobs js = .ok d.keys.length := by
    rw [countJobs_ok hb.represented.placed (by rw [hr']; rfl), InMemoryStore.recordCount_eq,
      hb.jobsOf, if_pos rfl]
  have hrun : syncIntendedCount js (quiet s') = (if r.intendedCount ≠ d.keys.length then do
      let _ ← update fun s => s.updateJobset { r with intendedCount := d.keys.length }
      pure ()
    else pure () : Manager Unit) (quiet s') := by
    rw [syncIntendedCount, recount, bind_ok (query_ok (getJobset_ok.mpr hr')),
      bind_ok (query_ok hcount)]
    simp only [decide_eq_true_eq]
  by_cases hc : r.intendedCount = d.keys.length
  · refine ⟨s', hrun.trans (by rw [if_neg (not_not.mpr hc)]; rfl), hb.jobsOf,
      congrArg Dict.keys hb.jobsets, fun js' => ?_⟩
    rw [hb.jobsets]
    split
    case isTrue heq => rw [heq, hr, Option.map_some, ← hc]
    case isFalse => rfl
  · have hmem : js ∈ s'.jobsets.keys := Dict.mem_keys.mpr ⟨r, hr'⟩
    generalize ht : ({ s' with
      jobsets := s'.jobsets.set js { r with intendedCount := d.keys.length } } : InMemoryStore) = t
    have hs : s'.updateJobset { r with intendedCount := d.keys.length }
        = .ok ({ r with intendedCount := d.keys.length }, t) := by
      rw [← ht]
      simp only [InMemoryStore.updateJobset, hid, hmem, if_true]
    refine ⟨t, hrun.trans (by rw [if_pos hc, bind_ok (update_ok hs)]; rfl), ?_⟩
    subst ht
    refine ⟨hb.jobsOf, ?_, fun js' => ?_⟩
    · rw [Dict.keys_set_of_mem _ hmem, hb.jobsets]
    · rw [Dict.get?_set, hb.jobsets, hr]
      rfl

end Quiet

end Jobset

end Lsfmgr
