import Mathlib
import Lsfmgr.Store.Atomic

/-!
# Store/Batch — the batch operations are the single-item operations, one after the other

`JobSetStore` implements every batch by calling the single-item operation in order; the in-memory
store does the whole batch under one lock and reads the clock once.  The results agree in everything
but the times of the writes (`untimed`): both stores look at an item after having written the ones
before it.
-/

namespace Lsfmgr

open Machinery

/-- The record without the time of its last write. -/
def JobRecord.untimed (r : JobRecord) : JobRecord := { r with updatedAt := none }

/-- A guard that answers, and does not look at the time of the last write. -/
structure Guard.Blind (guard : Option Guard) : Prop where
  total : ∀ r, ∃ b, InMemoryStore.checkGuard guard r = .ok b
  untimed : ∀ r, InMemoryStore.checkGuard guard r.untimed = InMemoryStore.checkGuard guard r

/-- An item of a batch with valid fields and a blind guard. -/
structure TransitionSpec.Valid (spec : TransitionSpec) : Prop where
  plain : ∀ f ∈ spec.fields, f.Plain
  blind : Guard.Blind spec.guard

namespace InMemoryStore

/-! ## The defaults of the base class -/

/-- `JobSetStore._transition_many_impl`; every call reads the clock. -/
def defaultTransitionManyImpl (s : InMemoryStore) (jobsetId : String) :
    List (Time × TransitionSpec) → Except StoreError (List JobRecord) × InMemoryStore
  | [] => (.ok [], s)
  | (now, spec) :: specs =>
    match s.transition now jobsetId spec.jobKey spec.newState spec.guard spec.fields with
    | .error (.jobNotFound ..) => s.defaultTransitionManyImpl jobsetId specs
    | .error e => (.error e, s)
    | .ok (none, s) => s.defaultTransitionManyImpl jobsetId specs
    | .ok (some rec, s) =>
      let (out, s) := s.defaultTransitionManyImpl jobsetId specs
      (out.map (rec :: ·), s)

/-- `JobSetStore.transition_many` over the default body. -/
def defaultTransitionMany (s : InMemoryStore) (jobsetId : String)
    (specs : List (Time × TransitionSpec)) :
    Except StoreError (List JobRecord) × InMemoryStore :=
  match specs.findSome? fun e => e.2.fields.findSome? Field.keyName? with
  | some n => (.error (.keyField n), s)
  | none => s.defaultTransitionManyImpl jobsetId specs

/-- `JobSetStore.store_delete_jobs` -/
def defaultDeleteJobs (s : InMemoryStore) (jobsetId : String) :
    List String → List JobRecord × InMemoryStore
  | [] => ([], s)
  | key :: keys =>
    match s.storeDeleteJob jobsetId key with
    | .ok (r, s) =>
      let (rs, s) := s.defaultDeleteJobs jobsetId keys
      (r :: rs, s)
    | .error _ => s.defaultDeleteJobs jobsetId keys

/-- `JobSetStore.get_jobs_by_keys` -/
def defaultGetJobsByKeys (s : InMemoryStore) (jobsetId : String) (jobKeys : List String) :
    Dict String JobRecord :=
  jobKeys.foldl (fun d k => match s.getJob jobsetId k with
    | .ok r => d.set k r
    | .error _ => d) ∅

/-- `JobSetStore.store_add_jobs`; every call reads the clock. -/
def defaultAddJobs (s : InMemoryStore) :
    List (Time × JobRecord) → Except StoreError (List JobRecord) × InMemoryStore
  | [] => (.ok [], s)
  | (now, record) :: records =>
    match s.storeAddJob now record with
    | .error e => (.error e, s)
    | .ok (record, s) =>
      let (out, s) := s.defaultAddJobs records
      (out.map (record :: ·), s)

/-! ## Stores that differ in the times only -/

def untimed (s : InMemoryStore) : InMemoryStore where
  jobsets := s.jobsets
  jobs := s.jobs.mapValues fun _ jobs => jobs.mapValues fun _ r => r.untimed
  counts := s.counts

/-- The outcome of a batch without the times. -/
def untimedOutcome (out : Except StoreError (List JobRecord) × InMemoryStore) :
    Except StoreError (List JobRecord) × InMemoryStore :=
  (out.1.map (·.map JobRecord.untimed), out.2.untimed)

section Untimed

variable {s t : InMemoryStore} {js k : String}

@[simp] theorem untimed_untimed (r : JobRecord) : r.untimed.untimed = r.untimed := rfl

theorem job?_untimed (s : InMemoryStore) (js k : String) :
    s.untimed.job? js k = (s.job? js k).map JobRecord.untimed := by
  simp only [job?, untimed, Dict.get?_mapValues]
  rcases s.jobs.get? js with _ | jobs
  · rfl
  · simp [Dict.get?_mapValues]

theorem job?_map_untimed (h : s.untimed = t.untimed) (js k : String) :
    (s.job? js k).map JobRecord.untimed = (t.job? js k).map JobRecord.untimed := by
  rw [← job?_untimed, ← job?_untimed, h]

theorem mem_jobs_keys_untimed (h : s.untimed = t.untimed) :
    js ∈ s.jobs.keys ↔ js ∈ t.jobs.keys := by
  have hk := congrArg (fun u : InMemoryStore => u.jobs.keys) h
  simp only [untimed, Dict.keys_mapValues] at hk
  rw [hk]

theorem countDel_untimed (s : InMemoryStore) (js : String) (st : JobState) :
    (s.countDel js st).untimed = s.untimed.countDel js st := by
  simp only [countDel, untimed]
  rcases s.counts.get? js with _ | counts
  · rfl
  · by_cases h : counts.keys = [] <;> simp [h]

/-- **Writing commutes with forgetting the times.** -/
theorem putRec_untimed (s : InMemoryStore) (r : JobRecord) :
    (s.putRec r).map untimed = s.untimed.putRec r.untimed := by
  simp only [putRec, JobRecord.untimed]
  rcases hj : s.jobs.get? r.jobsetId with _ | jobs
  · simp [untimed, Dict.get?_mapValues, hj, Except.map]
  · have hj' : s.untimed.jobs.get? r.jobsetId
        = some (jobs.mapValues fun _ r => r.untimed) := by
      simp [untimed, Dict.get?_mapValues, hj]
    rw [hj']
    simp only [Dict.get?_mapValues]
    rcases hold : jobs.get? r.jobKey with _ | old
    · simp [Except.map, untimed, Dict.mapValues_set, JobRecord.untimed]
    · have hc := countDel_untimed s r.jobsetId old.state
      simp only [Option.map_some, Except.map, JobRecord.untimed, ← hc]
      simp [untimed, Dict.mapValues_set, JobRecord.untimed]

theorem put_untimed (f : Field) (r : JobRecord) : (f.put r).untimed = f.put r.untimed := by
  cases f <;> rfl

theorem foldl_put_untimed (fields : List Field) (r : JobRecord) :
    (fields.foldl (fun r f => f.put r) r).untimed
      = fields.foldl (fun r f => f.put r) r.untimed := by
  induction fields generalizing r with
  | nil => rfl
  | cons f fs ih => rw [List.foldl_cons, List.foldl_cons, ih, put_untimed]

/-- What is written differs in the time only. -/
theorem rewrite_untimed {r r' : JobRecord} (h : r.untimed = r'.untimed) (now now' : Time)
    (st : JobState) (rev : ℕ) (fields : List Field) :
    (r.rewrite now st rev fields).untimed = (r'.rewrite now' st rev fields).untimed := by
  have hrw : ∀ (r : JobRecord) (now : Time), (r.rewrite now st rev fields).untimed
      = { (fields.foldl (fun r f => f.put r) r).untimed with state := st, revision := rev + 1 } :=
    fun _ _ => rfl
  rw [hrw, hrw, foldl_put_untimed, foldl_put_untimed, h]

theorem state_revision_of_untimed {r r' : JobRecord} (h : r.untimed = r'.untimed) :
    r.state = r'.state ∧ r.revision = r'.revision ∧ r.jobsetId = r'.jobsetId ∧
      r.jobKey = r'.jobKey :=
  ⟨show r.untimed.state = r'.untimed.state by rw [h],
    show r.untimed.revision = r'.untimed.revision by rw [h],
    show r.untimed.jobsetId = r'.untimed.jobsetId by rw [h],
    show r.untimed.jobKey = r'.untimed.jobKey by rw [h]⟩

theorem Guard.Blind.congr {guard : Option Guard} (hg : Guard.Blind guard) {r r' : JobRecord}
    (h : r.untimed = r'.untimed) : checkGuard guard r = checkGuard guard r' := by
  rw [← hg.untimed r, ← hg.untimed r', h]

/-- Two writes of records that differ in the time. -/
theorem putRec_same (h : s.untimed = t.untimed) {r r' : JobRecord} (hr : r.untimed = r'.untimed)
    {s' t' : InMemoryStore} (hs : s.putRec r = .ok s') (ht : t.putRec r' = .ok t') :
    s'.untimed = t'.untimed := by
  have h₁ := putRec_untimed s r
  have h₂ := putRec_untimed t r'
  rw [hs, h, hr] at h₁
  rw [ht, ← h₁] at h₂
  exact (Except.ok.inj h₂).symm

end Untimed

/-! ## Batches of transitions -/

section Transitions

variable {s t : InMemoryStore} {js : String}

theorem replaceRec_eq (hs : s.Placed) {k : String} {old : JobRecord}
    (hold : s.job? js k = some old) {fields : List Field} (hf : ∀ f ∈ fields, f.Plain) (now : Time)
    (st : JobState) :
    s.replaceRec old now (some st) fields
      = (s.putRec (old.rewrite now st old.revision fields)).map fun s' =>
        (old.rewrite now st old.revision fields, s') := by
  obtain ⟨hjs, hk⟩ := hs.own _ _ _ hold
  rw [replaceRec, hjs, hk, hold]
  simp only [(findSome?_eq_none_of_plain hf).1, Option.getD_some]

/-- A write of an existing record, in two stores that differ in the times. -/
theorem replaceRec_same (hs : s.Placed) (ht : t.Placed) (h : s.untimed = t.untimed) {k : String}
    {old old' : JobRecord} (hold : s.job? js k = some old) (hold' : t.job? js k = some old')
    (heq : old.untimed = old'.untimed) {fields : List Field} (hf : ∀ f ∈ fields, f.Plain)
    (now now' : Time) (st : JobState) :
    ∃ r s' r' t', s.replaceRec old now (some st) fields = .ok (r, s') ∧
      t.replaceRec old' now' (some st) fields = .ok (r', t') ∧ r.untimed = r'.untimed ∧
      s'.untimed = t'.untimed ∧ s'.Placed ∧ t'.Placed := by
  obtain ⟨s', hs', hw⟩ := replaceRec_wrote now hs hold hf (some st)
  obtain ⟨t', ht', hw'⟩ := replaceRec_wrote now' ht hold' hf (some st)
  rw [Option.getD_some] at hs' ht' hw hw'
  have hrev := (state_revision_of_untimed heq).2.1
  have hnew : (old.rewrite now st old.revision fields).untimed
      = (old'.rewrite now' st old'.revision fields).untimed := by
    rw [← hrev]
    exact rewrite_untimed heq now now' st old.revision fields
  have hput := hs'
  have hput' := ht'
  rw [replaceRec_eq hs hold hf, except_map_eq_ok] at hput
  rw [replaceRec_eq ht hold' hf, except_map_eq_ok] at hput'
  obtain ⟨s₁, hs₁, hpair⟩ := hput
  obtain ⟨t₁, ht₁, hpair'⟩ := hput'
  obtain ⟨-, rfl⟩ := Prod.mk.inj hpair
  obtain ⟨-, rfl⟩ := Prod.mk.inj hpair'
  exact ⟨_, s₁, _, t₁, hs', ht', hnew, putRec_same h hnew hs₁ ht₁, hw.placed hs, hw'.placed ht⟩

/-- One more written record at the front of two outcomes that differ in the times. -/
theorem untimedOutcome_cons {r r' : JobRecord} (hr : r.untimed = r'.untimed)
    {out out' : Except StoreError (List JobRecord) × InMemoryStore}
    (h : untimedOutcome out = untimedOutcome out') :
    untimedOutcome (out.1.map (r :: ·), out.2) = untimedOutcome (out'.1.map (r' :: ·), out'.2) := by
  obtain ⟨o, s₁⟩ := out
  obtain ⟨o', s₁'⟩ := out'
  rcases o with e | l <;> rcases o' with e' | l' <;> simp_all [untimedOutcome, Except.map]

/-- **The body of the batch is the single transition, item by item.** -/
theorem transitionManyImpl_same {specs : List (Time × TransitionSpec)}
    (hv : ∀ e ∈ specs, e.2.Valid) (now : Time) (hs : s.Placed) (ht : t.Placed)
    (h : s.untimed = t.untimed) :
    untimedOutcome (s.transitionManyImpl now js (specs.map Prod.snd))
      = untimedOutcome (t.defaultTransitionManyImpl js specs) := by
  induction specs generalizing s t with
  | nil => simp [transitionManyImpl, defaultTransitionManyImpl, untimedOutcome, h]
  | cons e specs ih =>
    obtain ⟨now', spec⟩ := e
    obtain ⟨⟨hplain, hblind⟩, hv⟩ := List.forall_mem_cons.mp hv
    have hkey : rejectKeyFields spec.fields = .ok () := by
      rw [rejectKeyFields, (findSome?_eq_none_of_plain hplain).2]
    have hjob := job?_map_untimed h js spec.jobKey
    rw [List.map_cons, transitionManyImpl, defaultTransitionManyImpl]
    rcases hold : s.job? js spec.jobKey with _ | old
    · rw [hold] at hjob
      have hold' : t.job? js spec.jobKey = none := by simpa using hjob.symm
      simp only [transition, hkey, getJob, hold', bind, Except.bind]
      exact ih hv hs ht h
    · rw [hold] at hjob
      obtain ⟨old', hold', heq⟩ := Option.map_eq_some_iff.mp hjob.symm
      obtain ⟨hst, -⟩ := state_revision_of_untimed heq.symm
      obtain ⟨b, hb⟩ := hblind.total old
      have hb' : checkGuard spec.guard old' = .ok b := (Guard.Blind.congr hblind heq).trans hb
      cases b with
      | false =>
        simp only [transition, hkey, getJob, hold', hb, hb', bind, Except.bind, pure, Except.pure,
          Bool.false_eq_true, if_false]
        exact ih hv hs ht h
      | true =>
        obtain ⟨r, s', r', t', hs', ht', hr, hst', hp, hp'⟩ := replaceRec_same hs ht h hold hold'
          heq.symm hplain now now' (spec.newState.getD old.state)
        have hd : spec.newState.getD old'.state = spec.newState.getD old.state := by rw [hst]
        simp only [transition, hkey, getJob, hold', hb, hb', hd, hs', ht', bind, Except.bind, pure,
          Except.pure, if_true]
        exact untimedOutcome_cons hr (ih hv hp hp' hst')

theorem transitionMany_same {specs : List (Time × TransitionSpec)}
    (hv : ∀ e ∈ specs, e.2.Valid) (now : Time) (hs : s.Placed) :
    untimedOutcome (s.transitionMany now js (specs.map Prod.snd))
      = untimedOutcome (s.defaultTransitionMany js specs) := by
  have hnone : ∀ e ∈ specs, e.2.fields.findSome? Field.keyName? = none := fun e he =>
    (findSome?_eq_none_of_plain (hv e he).plain).2
  have h₁ : ((specs.map Prod.snd).findSome? fun spec => spec.fields.findSome? Field.keyName?)
      = none := by
    rw [List.findSome?_eq_none_iff]
    intro spec hspec
    obtain ⟨e, he, rfl⟩ := List.mem_map.mp hspec
    exact hnone e he
  have h₂ : (specs.findSome? fun e => e.2.fields.findSome? Field.keyName?) = none :=
    List.findSome?_eq_none_iff.mpr hnone
  rw [transitionMany, h₁, defaultTransitionMany, h₂]
  exact transitionManyImpl_same hv now hs hs rfl

end Transitions

/-! ## Batches of deletions and reads -/

theorem storeDeleteJobs_eq (s : InMemoryStore) (js : String) (ks : List String) :
    s.storeDeleteJobs js ks = s.defaultDeleteJobs js ks := by
  induction ks generalizing s with
  | nil => rfl
  | cons k ks ih =>
    rw [storeDeleteJobs, defaultDeleteJobs, storeDeleteJob]
    rcases dropRec_cases s js k with ⟨-, hd⟩ | ⟨old, s', -, hd, -⟩
    · simp only [hd, ih]
    · simp only [hd, ih]

theorem getJobsByKeys_eq (s : InMemoryStore) (js : String) (ks : List String) :
    s.getJobsByKeys js ks = s.defaultGetJobsByKeys js ks := by
  rw [getJobsByKeys, defaultGetJobsByKeys]
  congr 1
  funext d k
  rw [getJob]
  rcases s.job? js k with _ | r <;> rfl

/-! ## Bulk insertion -/

section Insertion

variable {s t u : InMemoryStore}

/-- `t` is `s` with records added at the keys `seen`. -/
structure Ahead (s t : InMemoryStore) (seen : List (String × String)) : Prop where
  jobsets : t.jobsets = s.jobsets
  keys : ∀ js k, (t.job? js k).isSome = true ↔ (s.job? js k).isSome = true ∨ (js, k) ∈ seen

theorem isSome_job?_iff {js k : String} {jobs : Dict String JobRecord}
    (hj : s.jobs.get? js = some jobs) : (s.job? js k).isSome = true ↔ k ∈ jobs.keys := by
  rw [job?, hj, Option.bind_some, Dict.mem_keys, Option.isSome_iff_exists]

/-- What the next insertion meets in `t` is what the check says of `s`. -/
theorem Ahead.next (hA : Ahead s t seen) (hs : s.Placed) (ht : t.Placed) (r : JobRecord)
    (records : List JobRecord) (now : Time) :
    (∃ e, s.checkNewJobs seen (r :: records) = .error e ∧ t.storeAddJob now r = .error e) ∨
      s.checkNewJobs seen (r :: records)
        = s.checkNewJobs ((r.jobsetId, r.jobKey) :: seen) records ∧
      ∃ t', t.storeAddJob now r = .ok ({ r with updatedAt := some (r.updatedAt.getD now) }, t') ∧
        t.putRec { r with updatedAt := some (r.updatedAt.getD now) } = .ok t' ∧ t'.Placed ∧
        Ahead s t' ((r.jobsetId, r.jobKey) :: seen) := by
  rw [checkNewJobs, storeAddJob, hA.jobsets]
  by_cases hmem : r.jobsetId ∈ s.jobsets.keys
  · obtain ⟨jobs, hj⟩ := Dict.mem_keys.mp ((hs.jobs_iff _).mpr hmem)
    obtain ⟨jobs', hj'⟩ := Dict.mem_keys.mp ((ht.jobs_iff _).mpr (hA.jobsets ▸ hmem))
    have hkey : r.jobKey ∈ jobs'.keys ↔ r.jobKey ∈ jobs.keys ∨ (r.jobsetId, r.jobKey) ∈ seen := by
      rw [← isSome_job?_iff hj', ← isSome_job?_iff hj]
      exact hA.keys _ _
    simp only [hmem, if_true, hj, hj']
    by_cases hdup : r.jobKey ∈ jobs'.keys
    · rw [if_pos (hkey.mp hdup).symm, if_pos hdup]
      exact .inl ⟨_, rfl, rfl⟩
    · rw [if_neg fun h => hdup (hkey.mpr h.symm), if_neg hdup]
      obtain ⟨t', ht', hw⟩ := putRec_wrote (s := t)
        (r := { r with updatedAt := some (r.updatedAt.getD now) })
        (Dict.mem_keys.mpr ⟨jobs', hj'⟩)
      refine .inr ⟨rfl, t', by rw [ht']; rfl, ht', hw.placed ht, hw.jobsets.trans hA.jobsets,
        fun js k => ?_⟩
      rw [hw.job?, List.mem_cons, Prod.mk.injEq]
      by_cases hc : js = r.jobsetId ∧ k = r.jobKey
      · simp [hc]
      · rw [if_neg hc, hA.keys]
        tauto
  · simp only [hmem, if_false]
    exact .inl ⟨_, rfl, rfl⟩

/-- The time an insertion stamps is not seen without the times. -/
theorem stamp_untimed (r : JobRecord) (now now' : Time) :
    ({ r with updatedAt := some (r.updatedAt.getD now) } : JobRecord).untimed
      = ({ r with updatedAt := some (r.updatedAt.getD now') } : JobRecord).untimed := rfl

theorem untimed_putRec_stamp (h : t.untimed = u.untimed) (r : JobRecord) (now now' : Time)
    {t' : InMemoryStore}
    (ht : t.putRec { r with updatedAt := some (r.updatedAt.getD now) } = .ok t') :
    ∃ u', u.putRec { r with updatedAt := some (r.updatedAt.getD now') } = .ok u' ∧
      t'.untimed = u'.untimed := by
  have hmem : r.jobsetId ∈ u.jobs.keys := by
    rw [← mem_jobs_keys_untimed h]
    rcases hj : t.jobs.get? r.jobsetId with _ | jobs
    · simp [putRec, hj] at ht
    · exact Dict.mem_keys.mpr ⟨jobs, hj⟩
  obtain ⟨u', hu', -⟩ := putRec_wrote (s := u)
    (r := { r with updatedAt := some (r.updatedAt.getD now') }) hmem
  exact ⟨u', hu', putRec_same h (stamp_untimed r now now') ht hu'⟩

/-- **Inserting in bulk**: the checks fail as the sequence of insertions would; otherwise the
sequence succeeds and the writes are the same. -/
theorem addAll_same (records : List (Time × JobRecord)) (now : Time)
    (hA : Ahead s t seen) (hs : s.Placed) (ht : t.Placed) (h : u.untimed = t.untimed) :
    (∃ e, s.checkNewJobs seen (records.map Prod.snd) = .error e ∧
        (t.defaultAddJobs records).1 = .error e) ∨
      s.checkNewJobs seen (records.map Prod.snd) = .ok () ∧
        (∃ out, (t.defaultAddJobs records).1 = .ok out) ∧
        untimedOutcome (u.putAll now (records.map Prod.snd))
          = untimedOutcome (t.defaultAddJobs records) := by
  induction records generalizing t u seen with
  | nil => exact .inr ⟨rfl, ⟨[], rfl⟩, by simp [putAll, defaultAddJobs, untimedOutcome, h]⟩
  | cons e records ih =>
    obtain ⟨now', r⟩ := e
    rw [List.map_cons, defaultAddJobs, putAll]
    rcases hA.next hs ht r (records.map Prod.snd) now' with ⟨e, hc, hadd⟩ |
      ⟨hc, t', hadd, hput, ht', hA'⟩
    · exact .inl ⟨e, hc, by rw [hadd]⟩
    · obtain ⟨u', hu', hsame⟩ := untimed_putRec_stamp h.symm r now' now hput
      simp only [hc, hadd, hu']
      rcases ih hA' ht' hsame.symm with ⟨e, hce, hde⟩ | ⟨hce, ⟨out, hout⟩, heq⟩
      · exact .inl ⟨e, hce, by rw [hde]; rfl⟩
      · exact .inr ⟨hce, ⟨_, by rw [hout]; rfl⟩, untimedOutcome_cons (stamp_untimed r now now') heq⟩

end Insertion

/-! ## The refinement -/

/-- The batch operations of the store, called in the state `s`, do what the defaults of the base
class do. -/
structure RefinesItems (s : InMemoryStore) : Prop where
  transitionMany : ∀ (now : Time) (js : String) (specs : List (Time × TransitionSpec)),
    (∀ e ∈ specs, e.2.Valid) →
    untimedOutcome (s.transitionMany now js (specs.map Prod.snd))
      = untimedOutcome (s.defaultTransitionMany js specs)
  deleteJobs : ∀ js ks, s.storeDeleteJobs js ks = s.defaultDeleteJobs js ks
  getJobsByKeys : ∀ js ks, s.getJobsByKeys js ks = s.defaultGetJobsByKeys js ks
  addJobs : ∀ (now : Time) (records : List (Time × JobRecord)) (out : List JobRecord),
    (s.defaultAddJobs records).1 = .ok out →
    untimedOutcome (s.storeAddJobs now (records.map Prod.snd))
      = untimedOutcome (s.defaultAddJobs records)
  addJobs_raises : ∀ (now : Time) (records : List (Time × JobRecord)) (e : StoreError),
    (s.defaultAddJobs records).1 = .error e →
    s.storeAddJobs now (records.map Prod.snd) = (.error e, s)

/-- **The batches refine the items**, in the store after any sequence of operations. -/
theorem refinesItems (ops : List Op) : RefinesItems (afterOps ops) := by
  have hp := (represented_afterOps ops).placed
  generalize afterOps ops = s at hp
  have hA : Ahead s s [] := ⟨rfl, fun js k => by simp⟩
  refine ⟨fun now js specs hv => transitionMany_same hv now hp, s.storeDeleteJobs_eq,
    s.getJobsByKeys_eq, fun now records out hout => ?_, fun now records e he => ?_⟩
  · rcases addAll_same records now hA hp hp rfl with ⟨e, -, he⟩ | ⟨hc, -, heq⟩
    · rw [hout] at he
      cases he
    · rw [storeAddJobs, hc]
      exact heq
  · rcases addAll_same records now hA hp hp rfl with ⟨e', hc, he'⟩ | ⟨-, ⟨out, hout⟩, -⟩
    · obtain rfl : e = e' := Except.error.inj (he.symm.trans he')
      rw [storeAddJobs, hc]
    · rw [hout] at he
      cases he

end InMemoryStore

end Lsfmgr
