import Mathlib
import Lsfmgr.Machinery.Tally
import Lsfmgr.Store.Memory

/-!
# Store/Counts — the representation invariant of the store

The per-state counts are a second copy of what the records say, kept up to date by `putRec` and
`dropRec` alone.  `Represented` says that the copy is right: the three tables know the same jobsets,
every record lies under its own ids, and every count is the number of records in that state.  The
two functions of the funnel keep it, and with them every operation of the store, whatever it is
called with and whether or not it raises (`represented_afterOps`).
-/

namespace Lsfmgr

open Machinery

namespace InMemoryStore

/-- The number of records in a state. -/
def stateCount (jobs : Dict String JobRecord) (st : JobState) : ℕ :=
  jobs.values.countP fun r => r.state = st

/-- The table has the counts `f`, and no entry where the count is zero. -/
def Tallies (counts : Dict JobState ℕ) (f : JobState → ℕ) : Prop :=
  ∀ st, counts.get? st = if f st = 0 then none else some (f st)

/-- **The representation invariant.** -/
structure Represented (s : InMemoryStore) : Prop where
  placed : s.Placed
  counts_iff : ∀ js, js ∈ s.counts.keys ↔ js ∈ s.jobsets.keys
  tallies : ∀ js jobs counts, s.jobs.get? js = some jobs → s.counts.get? js = some counts →
    Tallies counts (stateCount jobs)

theorem represented_empty : Represented {} where
  placed := placed_empty
  counts_iff _ := Iff.rfl
  tallies _ _ _ h := by simp at h

/-! ## The counter of one state -/

section Tallies

variable {counts : Dict JobState ℕ} {f g : JobState → ℕ} {st : JobState}

theorem Tallies.get?_getD (h : Tallies counts f) (st : JobState) :
    (counts.get? st).getD 0 = f st := Tally.getD h st

/-- One record more in the state. -/
theorem Tallies.add (h : Tallies counts f) (hst : g st = f st + 1)
    (hother : ∀ st', st' ≠ st → g st' = f st') :
    Tallies (counts.set st ((counts.get? st).getD 0 + 1)) g := Tally.countUp h hst hother

/-- One record less in the state: a counter that reaches zero is removed. -/
theorem Tallies.sub (h : Tallies counts f) (hst : f st = g st + 1)
    (hother : ∀ st', st' ≠ st → g st' = f st') :
    Tallies (if 0 < (counts.get? st).getD 0 - 1 then counts.set st ((counts.get? st).getD 0 - 1)
      else counts.erase st) g := by
  have hn : (counts.get? st).getD 0 - 1 = g st := by rw [h.get?_getD, hst]; rfl
  rw [hn]
  split
  case isTrue hpos => exact Tally.set h hpos.ne' rfl hother
  case isFalse hzero => exact Tally.erase h (by omega) hother

end Tallies

/-! ## The two functions of the funnel -/

section Funnel

variable {s s' : InMemoryStore} {js k : String}

/-- Taking the record at a key out of the counts. -/
theorem countDel_counts {jobs : Dict String JobRecord} {counts : Dict JobState ℕ} {old : JobRecord}
    (hc : s.counts.get? js = some counts) (ht : Tallies counts (stateCount jobs))
    (hold : jobs.get? k = some old) :
    ∃ counts', (s.countDel js old.state).counts = s.counts.set js counts' ∧
      Tallies counts' (stateCount (jobs.erase k)) := by
  have hcount : ∀ st, stateCount jobs st
      = stateCount (jobs.erase k) st + (decide (old.state = st)).toNat := fun st =>
    Dict.countP_values_erase hold _
  have hst : stateCount jobs old.state = stateCount (jobs.erase k) old.state + 1 := by
    simpa using hcount old.state
  have hne : counts.keys ≠ [] := by
    have hmem : old.state ∈ counts.keys :=
      Dict.mem_keys.mpr ⟨_, by rw [ht old.state, if_neg (by omega)]⟩
    exact List.ne_nil_of_mem hmem
  exact ⟨_, by rw [countDel, hc]; simp only [if_neg hne], ht.sub hst fun st' hne' => by
    simpa [Ne.symm hne'] using (hcount st').symm⟩

/-- What the representation says of one jobset. -/
theorem Represented.counts_get (h : s.Represented) {jobs : Dict String JobRecord}
    (hj : s.jobs.get? js = some jobs) :
    js ∈ s.jobsets.keys ∧ ∃ counts, s.counts.get? js = some counts ∧
      Tallies counts (stateCount jobs) := by
  have hmem := (h.placed.jobs_iff js).mp (Dict.mem_keys.mpr ⟨jobs, hj⟩)
  obtain ⟨counts, hc⟩ := Dict.mem_keys.mp ((h.counts_iff js).mpr hmem)
  exact ⟨hmem, counts, hc, h.tallies js jobs counts hj hc⟩

/-- The records and the counts of one jobset set anew. -/
theorem Represented.of_set (h : s.Represented) (hp : s'.Placed) (hjs : s'.jobsets = s.jobsets)
    {jobs : Dict String JobRecord} {counts : Dict JobState ℕ} (hmem : js ∈ s.jobsets.keys)
    (hjobs : ∀ js', s'.jobs.get? js' = if js' = js then some jobs else s.jobs.get? js')
    (hcounts : ∀ js', s'.counts.get? js' = if js' = js then some counts else s.counts.get? js')
    (ht : Tallies counts (stateCount jobs)) : s'.Represented where
  placed := hp
  counts_iff js' := by
    rw [Dict.mem_keys, hcounts, hjs, ← h.counts_iff, Dict.mem_keys]
    split
    case isTrue heq =>
      subst heq
      exact iff_of_true ⟨_, rfl⟩ (Dict.mem_keys.mp ((h.counts_iff _).mpr hmem))
    case isFalse => exact Iff.rfl
  tallies js' jobs' counts' hj hc := by
    rw [hjobs] at hj
    rw [hcounts] at hc
    split at hj
    case isTrue heq =>
      rw [if_pos heq] at hc
      obtain rfl := Option.some.inj hj
      obtain rfl := Option.some.inj hc
      exact ht
    case isFalse hne =>
      rw [if_neg hne] at hc
      exact h.tallies js' jobs' counts' hj hc

/-- The store with the record at a key, if there is one, taken out of the counts. -/
def uncount (s : InMemoryStore) (js : String) : Option JobRecord → InMemoryStore
  | some old => s.countDel js old.state
  | none => s

theorem putRec_eq {r : JobRecord} {jobs : Dict String JobRecord}
    (hj : s.jobs.get? r.jobsetId = some jobs) {s₁ : InMemoryStore}
    (h₁ : s.uncount r.jobsetId (jobs.get? r.jobKey) = s₁) {counts : Dict JobState ℕ}
    (hc : s₁.counts.get? r.jobsetId = some counts) :
    s.putRec r = .ok { s₁ with
      jobs := s₁.jobs.set r.jobsetId (jobs.set r.jobKey r)
      counts := s₁.counts.set r.jobsetId
        (counts.set r.state ((counts.get? r.state).getD 0 + 1)) } := by
  subst h₁
  rw [InMemoryStore.putRec, hj]
  rcases hold : jobs.get? r.jobKey with _ | old
  · simp only [hold, uncount] at hc ⊢
    rw [hc]
    rfl
  · simp only [hold, uncount] at hc ⊢
    rw [hc]
    rfl

/-- The counts without the old record of the key. -/
theorem uncount_counts {jobs : Dict String JobRecord} {counts : Dict JobState ℕ}
    (hc : s.counts.get? js = some counts) (ht : Tallies counts (stateCount jobs)) :
    ∃ counts₁, (s.uncount js (jobs.get? k)).counts.get? js = some counts₁ ∧
      (∀ js', js' ≠ js → (s.uncount js (jobs.get? k)).counts.get? js' = s.counts.get? js') ∧
      Tallies counts₁ (stateCount (jobs.erase k)) := by
  rcases hold : jobs.get? k with _ | old
  · rw [Dict.erase_of_not_mem (Dict.get?_eq_none.mp hold)]
    exact ⟨counts, hc, fun _ _ => rfl, ht⟩
  · obtain ⟨counts', heq, ht'⟩ := countDel_counts hc ht hold
    exact ⟨counts', by simp [uncount, heq],
      fun js' hne => by simp [uncount, heq, Dict.get?_set_of_ne _ _ hne], ht'⟩

/-- **Putting a record keeps the representation.** -/
theorem Represented.putRec (h : s.Represented) {r : JobRecord} (hs : s.putRec r = .ok s') :
    s'.Represented := by
  rcases hj : s.jobs.get? r.jobsetId with _ | jobs
  · simp [InMemoryStore.putRec, hj] at hs
  · obtain ⟨hmem, counts, hc, ht⟩ := h.counts_get hj
    obtain ⟨s'', hs'', hw⟩ := putRec_wrote (Dict.mem_keys.mpr ⟨jobs, hj⟩)
    obtain rfl : s'' = s' := Except.ok.inj (hs''.symm.trans hs)
    obtain ⟨counts₁, hc₁, hother₁, ht₁⟩ := uncount_counts (k := r.jobKey) hc ht
    have hcount : ∀ st, stateCount (jobs.set r.jobKey r) st
        = stateCount (jobs.erase r.jobKey) st + (decide (r.state = st)).toNat := fun st =>
      Dict.countP_values_set jobs r.jobKey r _
    have hjobs : (s.uncount r.jobsetId (jobs.get? r.jobKey)).jobs = s.jobs := by
      cases jobs.get? r.jobKey <;> simp [uncount]
    obtain rfl := Except.ok.inj ((putRec_eq hj rfl hc₁).symm.trans hs)
    refine h.of_set (hw.placed h.placed) hw.jobsets hmem (fun js' => ?_) (fun js' => ?_)
      (ht₁.add (by simpa using hcount r.state)
        fun st' hne => by simpa [Ne.symm hne] using hcount st')
    · simp only [hjobs, Dict.get?_set]
    · rw [Dict.get?_set]
      split
      case isTrue => rfl
      case isFalse hne => exact hother₁ js' hne

/-- **…and so does dropping one.** -/
theorem Represented.dropRec (h : s.Represented) (js k : String) :
    (s.dropRec js k).2.Represented := by
  rcases hj : s.jobs.get? js with _ | jobs
  · simpa [InMemoryStore.dropRec, hj] using h
  · rcases hold : jobs.get? k with _ | old
    · simpa [InMemoryStore.dropRec, hj, hold] using h
    · obtain ⟨hmem, counts, hc, ht⟩ := h.counts_get hj
      obtain ⟨counts', heq, ht'⟩ := countDel_counts hc ht hold
      have hp : (s.dropRec js k).2.Placed := by
        rcases dropRec_cases s js k with ⟨-, hd⟩ | ⟨_, _, -, hd, hw⟩
        · rw [hd]; exact h.placed
        · rw [hd]; exact hw.placed h.placed
      simp only [InMemoryStore.dropRec, hj, hold] at hp ⊢
      exact h.of_set hp (by simp) hmem (fun js' => by simp [Dict.get?_set])
        (fun js' => by simp [heq, Dict.get?_set]) ht'

/-! ## The operations -/

theorem Represented.storeInsertJobset (h : s.Represented) {now : Time} {record out : JobSetRecord}
    (hs : s.storeInsertJobset now record = .ok (out, s')) : s'.Represented := by
  rw [InMemoryStore.storeInsertJobset] at hs
  split at hs
  case isTrue => cases hs
  case isFalse hnew =>
    obtain ⟨-, rfl⟩ := Prod.mk.inj (Except.ok.inj hs)
    have hjobs : s.jobs.get? record.jobsetId = none :=
      Dict.get?_eq_none.mpr fun hk => hnew ((h.placed.jobs_iff _).mp hk)
    have hcounts : s.counts.get? record.jobsetId = none :=
      Dict.get?_eq_none.mpr fun hk => hnew ((h.counts_iff _).mp hk)
    rw [hjobs, hcounts]
    refine ⟨⟨fun js => ?_, fun js k r hr => ?_⟩, fun js => ?_, fun js jobs counts hj hc => ?_⟩
    · simp only [Dict.mem_keys_set, h.placed.jobs_iff]
    · simp only [job?, Dict.get?_set] at hr
      split at hr
      case isTrue => simp at hr
      case isFalse => exact h.placed.own _ _ _ hr
    · simp only [Dict.mem_keys_set, h.counts_iff]
    · simp only [Dict.get?_set] at hj hc
      split at hj
      case isTrue heq =>
        rw [if_pos heq] at hc
        obtain rfl := Option.some.inj hj
        obtain rfl := Option.some.inj hc
        exact fun st => by simp [stateCount]
      case isFalse hne =>
        rw [if_neg hne] at hc
        exact h.tallies _ _ _ hj hc

theorem Represented.updateJobset (h : s.Represented) {record out : JobSetRecord}
    (hs : s.updateJobset record = .ok (out, s')) : s'.Represented := by
  rw [InMemoryStore.updateJobset] at hs
  split at hs
  case isFalse => cases hs
  case isTrue hmem =>
    obtain ⟨-, rfl⟩ := Prod.mk.inj (Except.ok.inj hs)
    have hkeys : ∀ js, js ∈ (s.jobsets.set record.jobsetId record).keys ↔ js ∈ s.jobsets.keys := by
      intro js
      rw [Dict.mem_keys_set]
      exact ⟨fun hk => hk.elim (fun heq => heq ▸ hmem) id, .inr⟩
    exact ⟨⟨fun js => (h.placed.jobs_iff js).trans (hkeys js).symm, h.placed.own⟩,
      fun js => (h.counts_iff js).trans (hkeys js).symm, h.tallies⟩

theorem Represented.storeDeleteJobset (h : s.Represented) (js : String) :
    (s.storeDeleteJobset js).Represented where
  placed := h.placed.storeDeleteJobset js
  counts_iff js' := by
    simp [InMemoryStore.storeDeleteJobset, Dict.mem_keys_erase, h.counts_iff]
  tallies js' jobs counts hj hc := by
    simp only [InMemoryStore.storeDeleteJobset, Dict.get?_erase] at hj hc
    split at hj
    case isTrue => cases hj
    case isFalse hne =>
      rw [if_neg hne] at hc
      exact h.tallies _ _ _ hj hc

theorem Represented.storeAddJob (h : s.Represented) {now : Time} {record out : JobRecord}
    (hs : s.storeAddJob now record = .ok (out, s')) : s'.Represented := by
  rw [InMemoryStore.storeAddJob] at hs
  split at hs
  case isFalse => cases hs
  case isTrue =>
    split at hs
    case h_1 => cases hs
    case h_2 =>
      split at hs
      case isTrue => cases hs
      case isFalse =>
        obtain ⟨s₁, hput, heq⟩ := except_map_eq_ok.mp hs
        obtain ⟨-, rfl⟩ := Prod.mk.inj heq
        exact h.putRec hput

theorem Represented.putAll (h : s.Represented) (now : Time) (records : List JobRecord) :
    (s.putAll now records).2.Represented := by
  induction records generalizing s with
  | nil => exact h
  | cons r records ih =>
    rw [InMemoryStore.putAll]
    rcases hput : s.putRec { r with updatedAt := some (r.updatedAt.getD now) } with e | s₁
    · exact h
    · exact ih (h.putRec hput)

theorem Represented.replaceRec (h : s.Represented) {r out : JobRecord} {now : Time}
    {st : Option JobState} {fields : List Field}
    (hs : s.replaceRec r now st fields = .ok (out, s')) : s'.Represented := by
  rw [InMemoryStore.replaceRec] at hs
  split at hs
  case h_1 => cases hs
  case h_2 =>
    split at hs
    case h_1 => cases hs
    case h_2 =>
      obtain ⟨s₁, hput, heq⟩ := except_map_eq_ok.mp hs
      obtain ⟨-, rfl⟩ := Prod.mk.inj heq
      exact h.putRec hput

theorem Represented.updateJob (h : s.Represented) {now : Time} {r out : JobRecord}
    (hs : s.updateJob now r = .ok (out, s')) : s'.Represented := by
  rw [InMemoryStore.updateJob] at hs
  split at hs
  · cases hs
  · exact h.replaceRec hs

theorem Represented.transition (h : s.Represented) {now : Time} {ns : Option JobState}
    {guard : Option Guard} {fields : List Field} {out : Option JobRecord}
    (hs : s.transition now js k ns guard fields = .ok (out, s')) : s'.Represented := by
  simp only [InMemoryStore.transition, bind, Except.bind] at hs
  split at hs
  case h_1 => cases hs
  case h_2 =>
    split at hs
    case h_1 => cases hs
    case h_2 =>
      split at hs
      case h_1 => cases hs
      case h_2 ok _ =>
        split at hs
        case isTrue =>
          split at hs
          case h_1 => cases hs
          case h_2 hrep =>
            obtain ⟨-, rfl⟩ := Prod.mk.inj (Except.ok.inj hs)
            exact h.replaceRec hrep
        case isFalse =>
          obtain ⟨-, rfl⟩ := Prod.mk.inj (Except.ok.inj hs)
          exact h

/-- A batch of transitions keeps the representation, wherever it stops. -/
theorem Represented.transitionManyImpl (h : s.Represented) (now : Time) (js : String)
    (specs : List TransitionSpec) : (s.transitionManyImpl now js specs).2.Represented := by
  induction specs generalizing s with
  | nil => exact h
  | cons spec specs ih =>
    rw [InMemoryStore.transitionManyImpl]
    split
    case h_1 => exact ih h
    case h_2 old _ =>
      split
      case h_1 => exact h
      case h_2 => exact ih h
      case h_3 =>
        split
        case h_1 => exact h
        case h_2 hrep => exact ih (h.replaceRec hrep)

theorem Represented.transitionMany (h : s.Represented) (now : Time) (js : String)
    (specs : List TransitionSpec) : (s.transitionMany now js specs).2.Represented := by
  rw [InMemoryStore.transitionMany]
  split
  · exact h
  · exact h.transitionManyImpl now js specs

theorem Represented.storeDeleteJobs (h : s.Represented) (js : String) (ks : List String) :
    (s.storeDeleteJobs js ks).2.Represented := by
  induction ks generalizing s with
  | nil => exact h
  | cons k ks ih =>
    rw [InMemoryStore.storeDeleteJobs]
    have hd := h.dropRec js k
    rcases hdrop : s.dropRec js k with ⟨_ | old, s₁⟩
    · rw [hdrop] at hd
      exact ih hd
    · rw [hdrop] at hd
      exact ih hd

end Funnel

/-! ## The summary -/

/-- The two parts of a summary: the total, and the number of jobs in each state. -/
structure Summary where
  total : ℤ
  counts : Dict JobState ℕ
  deriving DecidableEq

/-- `summary_from_counts`: what has no record yet is counted as created. -/
def summaryFromCounts (jobset : JobSetRecord) (counts : Dict JobState ℕ) : Summary :=
  let missing := jobset.intendedCount - counts.values.sum
  { total := jobset.intendedCount
    counts :=
      if 0 < missing then
        counts.set .created ((counts.get? .created).getD 0 + missing.toNat)
      else counts }

def summary (s : InMemoryStore) (js : String) : Except StoreError Summary :=
  (s.getJobset js).map fun r => summaryFromCounts r ((s.counts.get? js).getD ∅)

/-- The counts add up to the number of records. -/
theorem Tallies.sum_values {counts : Dict JobState ℕ} {jobs : Dict String JobRecord}
    (h : Tallies counts (stateCount jobs)) : counts.values.sum = jobs.values.length := by
  have hcount : ∀ st, stateCount jobs st = (jobs.values.map (·.state)).count st := fun st => by
    rw [stateCount, List.count, List.countP_map]
    exact List.countP_congr fun r _ => by simp
  have hvalues : counts.values = counts.keys.map (jobs.values.map (·.state)).count := by
    rw [Dict.values, Dict.keys, List.map_map]
    refine List.map_congr_left fun e he => ?_
    have hget := Dict.get?_eq_some.mpr (show (e.1, e.2) ∈ counts.entries from he)
    rw [h e.1] at hget
    split at hget
    case isTrue => cases hget
    case isFalse => rw [← Option.some.inj hget, hcount]; rfl
  have hkeys : counts.keys.Perm (jobs.values.map (·.state)).dedup := by
    refine (List.perm_ext_iff_of_nodup counts.nodup_keys (List.nodup_dedup _)).mpr fun st => ?_
    rw [Dict.mem_keys, List.mem_dedup, ← List.count_pos_iff, ← hcount, h st]
    split
    case isTrue hz => simp [hz]
    case isFalse hz => simpa using Nat.pos_of_ne_zero hz
  rw [hvalues, (hkeys.map _).sum_eq, List.sum_map_count_dedup_eq_length, List.length_map]

/-- A table without a zero has only positive counts. -/
theorem Tallies.pos {counts : Dict JobState ℕ} {f : JobState → ℕ} (h : Tallies counts f) {n : ℕ}
    (hn : n ∈ counts.values) : 0 < n := by
  obtain ⟨st, hst⟩ := Dict.mem_values.mp hn
  rw [h st] at hst
  split at hst
  case isTrue => cases hst
  case isFalse hz => rw [← Option.some.inj hst]; exact Nat.pos_of_ne_zero hz

/-- **A summary adds up** when the jobset has no more records than it was meant to have. -/
theorem Tallies.summary {counts : Dict JobState ℕ} {f : JobState → ℕ} (h : Tallies counts f)
    {jobset : JobSetRecord} (hle : (counts.values.sum : ℤ) ≤ jobset.intendedCount) :
    ((summaryFromCounts jobset counts).counts.values.sum : ℤ) = jobset.intendedCount ∧
      ∀ n ∈ (summaryFromCounts jobset counts).counts.values, 0 < n := by
  simp only [summaryFromCounts]
  split
  case isTrue hpos =>
    set n := (counts.get? .created).getD 0 + (jobset.intendedCount - counts.values.sum).toNat
    constructor
    · have hset := counts.sum_values_set .created n
      have hold := counts.sum_values_eq .created
      omega
    · intro m hm
      obtain ⟨st, hst⟩ := Dict.mem_values.mp hm
      rw [Dict.get?_set] at hst
      split at hst
      case isTrue => rw [← Option.some.inj hst]; omega
      case isFalse => exact h.pos (Dict.mem_values.mpr ⟨st, hst⟩)
  case isFalse hneg => exact ⟨by omega, fun n hn => h.pos hn⟩

/-! ## Every sequence of operations -/

/-- A writing operation of the store, with its arguments. -/
inductive Op
  | insertJobset (now : Time) (record : JobSetRecord)
  | updateJobset (record : JobSetRecord)
  | deleteJobset (jobsetId : String)
  | addJob (now : Time) (record : JobRecord)
  | addJobs (now : Time) (records : List JobRecord)
  | deleteJob (jobsetId jobKey : String)
  | deleteJobs (jobsetId : String) (jobKeys : List String)
  | updateJob (now : Time) (record : JobRecord)
  | transition (now : Time) (jobsetId jobKey : String) (newState : Option JobState)
      (guard : Option Guard) (fields : List Field)
  | transitionMany (now : Time) (jobsetId : String) (specs : List TransitionSpec)

/-- The outcome of a single-item operation: what it raises, if it does, and the store after it. -/
def single {α : Type} (s : InMemoryStore) :
    Except StoreError (α × InMemoryStore) → Option StoreError × InMemoryStore
  | .ok (_, s') => (none, s')
  | .error e => (some e, s)

/-- The outcome of a batch. -/
def batch {α : Type} : Except StoreError α × InMemoryStore → Option StoreError × InMemoryStore
  | (.ok _, s') => (none, s')
  | (.error e, s') => (some e, s')

def perform (s : InMemoryStore) : Op → Option StoreError × InMemoryStore
  | .insertJobset now record => s.single (s.storeInsertJobset now record)
  | .updateJobset record => s.single (s.updateJobset record)
  | .deleteJobset js => (none, s.storeDeleteJobset js)
  | .addJob now record => s.single (s.storeAddJob now record)
  | .addJobs now records => batch (s.storeAddJobs now records)
  | .deleteJob js k => s.single (s.storeDeleteJob js k)
  | .deleteJobs js ks => (none, (s.storeDeleteJobs js ks).2)
  | .updateJob now record => s.single (s.updateJob now record)
  | .transition now js k ns guard fields => s.single (s.transition now js k ns guard fields)
  | .transitionMany now js specs => batch (s.transitionMany now js specs)

@[simp] theorem batch_snd {α : Type} (out : Except StoreError α × InMemoryStore) :
    (batch out).2 = out.2 := by
  rcases out with ⟨_ | _, _⟩ <;> rfl

theorem Represented.single {α : Type} {s : InMemoryStore} (h : s.Represented)
    {out : Except StoreError (α × InMemoryStore)}
    (hok : ∀ a s', out = .ok (a, s') → s'.Represented) : (s.single out).2.Represented := by
  rcases out with e | ⟨a, s'⟩
  · exact h
  · exact hok a s' rfl

/-- **Every operation keeps the representation**, successful or raising. -/
theorem Represented.perform {s : InMemoryStore} (h : s.Represented) (op : Op) :
    (s.perform op).2.Represented := by
  cases op with
  | insertJobset now record => exact h.single fun _ _ => h.storeInsertJobset
  | updateJobset record => exact h.single fun _ _ => h.updateJobset
  | deleteJobset js => exact h.storeDeleteJobset js
  | addJob now record => exact h.single fun _ _ => h.storeAddJob
  | addJobs now records =>
    rw [InMemoryStore.perform, batch_snd, storeAddJobs]
    split
    · exact h
    · exact h.putAll now records
  | deleteJob js k =>
    refine h.single fun r s' hs => ?_
    have hd := h.dropRec js k
    rw [storeDeleteJob] at hs
    split at hs
    case h_1 heq =>
      obtain ⟨-, rfl⟩ := Prod.mk.inj (Except.ok.inj hs)
      rwa [heq] at hd
    case h_2 => cases hs
  | deleteJobs js ks => exact h.storeDeleteJobs js ks
  | updateJob now record => exact h.single fun _ _ => h.updateJob
  | transition now js k ns guard fields => exact h.single fun _ _ => h.transition
  | transitionMany now js specs =>
    rw [InMemoryStore.perform, batch_snd]
    exact h.transitionMany now js specs

/-- The store after a sequence of operations, starting empty. -/
def afterOps (ops : List Op) : InMemoryStore := ops.foldl (fun s op => (s.perform op).2) {}

/-- **The representation invariant**: after every sequence of operations with any arguments. -/
theorem represented_afterOps (ops : List Op) : (afterOps ops).Represented := by
  suffices ∀ s : InMemoryStore, s.Represented →
      (ops.foldl (fun s op => (s.perform op).2) s).Represented from this {} represented_empty
  induction ops with
  | nil => exact fun s h => h
  | cons op ops ih => exact fun s h => ih _ (h.perform op)

end InMemoryStore

end Lsfmgr
