import Mathlib
import Lsfmgr.Monitor.Frame

/-!
# Monitor/Converge — an observation that was written once is not written again

`merge_fields` tests for a change and computes what to write in two expressions.  After the write
the test finds no difference to the same observation, so polls that are answered alike settle: only
a loss can still be written.
-/

namespace Lsfmgr

/-! ## One record -/

section

variable {rec cur : JobRecord} {st : JobStatus} {ru cc : Bool} {fields : List Field}

@[simp] theorem keep_keep {α : Type*} (new old : Option α) :
    keep new (keep new old) = keep new old := by
  cases new <;> rfl

theorem keep_ne_none {α : Type*} {new old : Option α} (h : old ≠ none) : keep new old ≠ none := by
  cases new with
  | none => exact h
  | some a => exact Option.some_ne_none a

/-- When nothing changed. -/
theorem mergeFields_eq_none_iff : mergeFields rec st ru cc = none ↔
    st.state = rec.state ∧ st.exitCode = rec.exitCode ∧
      keep st.startTime rec.startTime = rec.startTime ∧
      keep st.finishTime rec.finishTime = rec.finishTime ∧
      (cc = true → keep st.sourceCluster rec.sourceCluster = rec.sourceCluster ∧
        keep st.forwardCluster rec.forwardCluster = rec.forwardCluster) ∧
      (ru = true → keep st.runTimeS rec.runTimeS = rec.runTimeS) := by
  simp only [mergeFields]
  cases cc <;> cases ru <;> simp [and_assoc]

/-- The record after a merge was written to it. -/
def merged (cc : Bool) (rec cur : JobRecord) (st : JobStatus) (now : Time)
    (revision : ℕ) : JobRecord :=
  { cur with
    jobId := rec.jobId.or (some st.jobId), state := st.state, exitCode := st.exitCode
    runTimeS := keep st.runTimeS rec.runTimeS, startTime := keep st.startTime rec.startTime
    finishTime := keep st.finishTime rec.finishTime
    sourceCluster := if cc then keep st.sourceCluster rec.sourceCluster else cur.sourceCluster
    forwardCluster := if cc then keep st.forwardCluster rec.forwardCluster else cur.forwardCluster
    updatedAt := some now, revision := revision + 1 }

theorem rewrite_eq_merged (cur : JobRecord)
    (h : mergeFields rec st ru cc = some fields) (now : Time)
    (revision : ℕ) :
    cur.rewrite now st.state revision fields = merged cc rec cur st now revision := by
  simp only [mergeFields] at h
  split at h
  case isFalse => cases h
  case isTrue =>
    obtain rfl := Option.some.inj h
    cases cc <;> simp [JobRecord.rewrite, merged, Field.put]

/-- **A merge settles**: merged again, the same observation changes nothing. -/
theorem mergeFields_merged (rec : JobRecord) (st : JobStatus) (ru cc : Bool) (now : Time)
    (revision : ℕ) : mergeFields (merged cc rec rec st now revision) st ru cc = none := by
  rw [mergeFields_eq_none_iff]
  cases cc <;> simp [merged]

/-- Clusters are written only when they are collected. -/
theorem collect_of_mem_mergeFields (h : mergeFields rec st ru cc = some fields) {v : Option String}
    (hv : .sourceCluster v ∈ fields ∨ .forwardCluster v ∈ fields) : cc = true := by
  simp only [mergeFields] at h
  split at h
  case isFalse => cases h
  case isTrue =>
    obtain rfl := Option.some.inj h
    cases cc
    · simp at hv
    · rfl

/-- A difference in the run time alone counts if run times are watched. -/
theorem mergeFields_runTime (hstate : st.state = rec.state) (hexit : st.exitCode = rec.exitCode)
    (hstart : keep st.startTime rec.startTime = rec.startTime)
    (hfinish : keep st.finishTime rec.finishTime = rec.finishTime)
    (hsource : keep st.sourceCluster rec.sourceCluster = rec.sourceCluster)
    (hforward : keep st.forwardCluster rec.forwardCluster = rec.forwardCluster)
    (hrun : keep st.runTimeS rec.runTimeS ≠ rec.runTimeS) :
    mergeFields rec st ru cc ≠ none ↔ ru = true := by
  rw [ne_eq, mergeFields_eq_none_iff]
  cases ru <;> simp [hstate, hexit, hstart, hfinish, hsource, hforward, hrun]

end

/-! ## Cycles -/

namespace Monitor

open Machinery InMemoryStore

/-- What one query cycle is answered, and the times at which it judges and writes. -/
structure Answer where
  rows : List JobStatus
  failed : Finset ℕ := ∅
  judgedAt : Time := 0
  now₁ : Time := 0
  now₂ : Time := 0

/-- The view of a cycle. -/
def Answer.view (a : Answer) (targets : List JobRecord) : View :=
  ⟨targets, a.rows, a.failed, a.judgedAt⟩

/-- The records a cycle asks about: none if the jobset does not exist. -/
def snapshot (js : String) (s : InMemoryStore) : List JobRecord :=
  match s.getJobs js (some JobState.isOnLsf) with
  | .ok targets => targets
  | .error _ => []

/-- The writes of the observations of a cycle on this store. -/
def observations (cfg : Config) (js : String) (s : InMemoryStore) (a : Answer) :
    List TransitionSpec := updateSpecs cfg (a.view (snapshot js s))

/-- A query cycle that nothing comes between, with the table of absences. -/
def cycle (cfg : Config) (js : String) (w : InMemoryStore × Streaks) (a : Answer) :
    InMemoryStore × Streaks :=
  if snapshot js w.1 = [] then w
  else
    let v := a.view (snapshot js w.1)
    let s₁ := (w.1.transitionMany a.now₁ js (updateSpecs cfg v)).2
    ((s₁.transitionMany a.now₂ js (lostSpecs (lostRecords cfg v w.2))).2,
      currentStreaks w.1 js (newStreaks cfg v w.2))

section

variable {cfg : Config} {js : String} {s : InMemoryStore} {a : Answer}

theorem mem_snapshot (hp : s.Placed) {rec : JobRecord} :
    rec ∈ snapshot js s ↔ s.job? js rec.jobKey = some rec ∧ rec.state.isOnLsf = true := by
  rw [snapshot, getJobs]
  have hjob : rec ∈ ((s.jobs.get? js).getD ∅).values ↔ s.job? js rec.jobKey = some rec := by
    rcases hj : s.jobs.get? js with _ | jobs
    · simp [job?, hj]
    · rw [Option.getD_some, Dict.mem_values]
      constructor
      · rintro ⟨k, hk⟩
        have hrec : s.job? js k = some rec := by simp [job?, hj, hk]
        rwa [(hp.own js k rec hrec).2]
      · intro h
        exact ⟨rec.jobKey, by simpa [job?, hj] using h⟩
  split_ifs with hmem
  · simp [hjob]
  · simp only [List.not_mem_nil, false_iff, not_and]
    intro h
    exact absurd ((hp.jobs_iff js).mp (mem_jobs_keys_of_job? h)) hmem

theorem nodup_keys_snapshot (hp : s.Placed) : ((snapshot js s).map (·.jobKey)).Nodup := by
  rw [snapshot]
  cases h : s.getJobs js (some JobState.isOnLsf) with
  | error e => simp
  | ok targets => exact nodup_snapshot hp h

/-- The observation a cycle writes to a record. -/
def observed (cfg : Config) (a : Answer) (rec : JobRecord) : Option JobStatus :=
  (lookup (rowTable a.rows) rec).bind fun st =>
    (mergeFields rec st cfg.pollRuntimeUpdates cfg.collectClusters).map fun _ => st

theorem observed_eq_some {rec : JobRecord} {st : JobStatus} : observed cfg a rec = some st ↔
    lookup (rowTable a.rows) rec = some st ∧
      ∃ fields, mergeFields rec st cfg.pollRuntimeUpdates cfg.collectClusters = some fields := by
  simp only [observed, Option.bind_eq_some_iff, Option.map_eq_some_iff]
  constructor
  · rintro ⟨_, hst, fields, hf, rfl⟩
    exact ⟨hst, fields, hf⟩
  · rintro ⟨hst, fields, hf⟩
    exact ⟨st, hst, fields, hf, rfl⟩

variable (cfg) (a) in
/-- The item of the first batch for a record of the snapshot. -/
theorem find?_updateSpecs (hp : s.Placed) {rec : JobRecord} (hrec : rec ∈ snapshot js s) :
    match observed cfg a rec with
    | none => (updateSpecs cfg (a.view (snapshot js s))).find? (·.jobKey = rec.jobKey) = none
    | some st => ∃ fields,
        mergeFields rec st cfg.pollRuntimeUpdates cfg.collectClusters = some fields ∧
        (updateSpecs cfg (a.view (snapshot js s))).find? (·.jobKey = rec.jobKey) =
          some ⟨rec.jobKey, some st.state, Guard.of (unchanged rec), fields⟩ := by
  have hsame {spec : TransitionSpec} (hspec : spec ∈ updateSpecs cfg (a.view (snapshot js s)))
      (hkey : spec.jobKey = rec.jobKey) : ∃ st fields, observed cfg a rec = some st ∧
        mergeFields rec st cfg.pollRuntimeUpdates cfg.collectClusters = some fields ∧
        spec = ⟨rec.jobKey, some st.state, Guard.of (unchanged rec), fields⟩ := by
    obtain ⟨other, hother, st, fields, hst, hm, rfl⟩ := mem_updateSpecs hspec
    obtain rfl : other = rec := by
      have h := ((mem_snapshot hp).mp hother).1
      rw [show other.jobKey = rec.jobKey from hkey, ((mem_snapshot hp).mp hrec).1] at h
      exact (Option.some.inj h).symm
    exact ⟨st, fields, observed_eq_some.mpr ⟨hst, fields, hm⟩, hm, rfl⟩
  cases hf : (updateSpecs cfg (a.view (snapshot js s))).find? (·.jobKey = rec.jobKey) with
  | none =>
    cases ho : observed cfg a rec with
    | none => rfl
    | some st =>
      obtain ⟨hst, fields, hm⟩ := observed_eq_some.mp ho
      have hmem : (⟨rec.jobKey, some st.state, Guard.of (unchanged rec), fields⟩ : TransitionSpec) ∈
          updateSpecs cfg (a.view (snapshot js s)) := by
        refine List.mem_filterMap.mpr ⟨rec, hrec, ?_⟩
        rw [show lookup (rowTable (a.view (snapshot js s)).rows) rec = some st from hst,
          Option.bind_some, hm]
        rfl
      have := List.find?_eq_none.mp hf _ hmem
      simp at this
  | some spec =>
    have hkey : spec.jobKey = rec.jobKey := by simpa using List.find?_some hf
    obtain ⟨st, fields, ho, hm, rfl⟩ := hsame (List.mem_of_find?_eq_some hf) hkey
    rw [ho]
    exact ⟨fields, hm, rfl⟩

variable (cfg) (a) in
/-- The two batches of a cycle. -/
theorem cycle_batches (hp : s.Placed) (prev : Streaks) (hne : snapshot js s ≠ []) :
    let v := a.view (snapshot js s)
    ∃ s₁ : InMemoryStore, s₁.Placed ∧ (cycle cfg js (s, prev) a).1.Placed ∧
      (∀ k, s₁.job? js k = (s.job? js k).map fun old =>
        ((updateSpecs cfg v).find? (·.jobKey = k)).elim old fun spec =>
          batchWrite a.now₁ spec old) ∧
      ∀ k, (cycle cfg js (s, prev) a).1.job? js k = (s₁.job? js k).map fun old =>
        ((lostSpecs (lostRecords cfg v prev)).find? (·.jobKey = k)).elim old fun spec =>
          batchWrite a.now₂ spec old := by
  intro v
  have hnd : (v.targets.map (·.jobKey)).Nodup := nodup_keys_snapshot hp
  obtain ⟨out, s₁, hrun, hp₁, hread⟩ := transitionMany_ok js a.now₁ hp (safe_updateSpecs cfg v)
    (nodup_updateSpecs hnd)
  have hlost : ((lostRecords cfg v prev).map (·.jobKey)).Nodup := nodup_lostRecords hnd
  obtain ⟨out', s₂, hrun', hp₂, hread'⟩ := transitionMany_ok js a.now₂ hp₁ safe_lostSpecs
    (nodup_lostSpecs hlost)
  have hcycle : (cycle cfg js (s, prev) a).1 = s₂ := by
    rw [cycle, if_neg hne]
    simp only [v] at hrun hrun'
    simp only [hrun, hrun']
  rw [hcycle]
  exact ⟨s₁, hp₁, hp₂, hread, hread'⟩

/-- A record that is on LSF after a cycle is one of its snapshot, with the observation written to it
if there was one. -/
theorem job?_cycle (hp : s.Placed) (prev : Streaks) {k : String} {new : JobRecord}
    (hon : new.state.isOnLsf = true) (hnew : (cycle cfg js (s, prev) a).1.job? js k = some new) :
    ∃ rec ∈ snapshot js s, match observed cfg a rec with
      | none => new = rec
      | some st => new = merged cfg.collectClusters rec rec st a.now₁ rec.revision := by
  by_cases hnil : snapshot js s = []
  · rw [cycle, if_pos hnil] at hnew
    have hkey := (hp.own _ _ _ hnew).2
    have hmem := (mem_snapshot hp).mpr ⟨hkey ▸ hnew, hon⟩
    rw [hnil] at hmem
    cases hmem
  · obtain ⟨s₁, -, -, hread, hread'⟩ := cycle_batches cfg a hp prev hnil
    set v := a.view (snapshot js s) with hv
    rw [hread'] at hnew
    obtain ⟨cur, hcur, hlost⟩ := Option.map_eq_some_iff.mp hnew
    -- whoever is lost is not on LSF
    have hkept : cur = new := by
      cases hf : (lostSpecs (lostRecords cfg v prev)).find? (·.jobKey = k) with
      | none => simpa [hf] using hlost
      | some spec =>
        obtain ⟨rec, -, rfl⟩ := mem_lostSpecs (List.mem_of_find?_eq_some hf)
        rw [hf, Option.elim_some, batchWrite_of] at hlost
        split at hlost
        case isTrue => simp [← hlost, JobRecord.rewrite, JobState.isOnLsf] at hon
        case isFalse => exact hlost
    subst hkept
    rw [hread] at hcur
    obtain ⟨rec, hrec, hwrite⟩ := Option.map_eq_some_iff.mp hcur
    have hkey := (hp.own _ _ _ hrec).2
    subst hkey
    by_cases hmem : rec ∈ snapshot js s
    · refine ⟨rec, hmem, ?_⟩
      have hfind := find?_updateSpecs cfg a hp hmem
      split at hfind
      case h_1 =>
        rw [hv, hfind] at hwrite
        exact hwrite.symm
      case h_2 st _ =>
        obtain ⟨fields, hm, hspec⟩ := hfind
        have hself : unchanged rec rec = true := by simp [unchanged, JobRecord.sameExecution]
        rw [hspec, Option.elim_some, batchWrite_of, if_pos hself, rewrite_eq_merged rec hm]
          at hwrite
        exact hwrite.symm
    · -- no item names it
      have hfind : (updateSpecs cfg v).find? (·.jobKey = rec.jobKey) = none := by
        refine List.find?_eq_none.mpr fun spec hspec hkey => hmem ?_
        obtain ⟨other, hother, st, fields, -, -, rfl⟩ := mem_updateSpecs hspec
        have hjob := ((mem_snapshot hp).mp hother).1
        rw [show other.jobKey = rec.jobKey by simpa using hkey, hrec] at hjob
        rw [Option.some.inj hjob]
        exact hother
      rw [hfind] at hwrite
      obtain rfl : rec = cur := hwrite
      exact absurd ((mem_snapshot hp).mpr ⟨hrec, hon⟩) hmem

theorem placed_cycle (hp : s.Placed) (prev : Streaks) : (cycle cfg js (s, prev) a).1.Placed := by
  by_cases hnil : snapshot js s = []
  · rw [cycle, if_pos hnil]
    exact hp
  · obtain ⟨_, -, hplaced, -⟩ := cycle_batches cfg a hp prev hnil
    exact hplaced

/-- What is found for a record depends on its ids only. -/
theorem lookup_congr {rows : Dict (ℕ × Option ℕ) JobStatus} {rec rec' : JobRecord}
    (hid : rec'.jobId = rec.jobId) (hindex : rec'.arrayIndex = rec.arrayIndex) :
    lookup rows rec' = lookup rows rec := by
  rw [lookup, lookup, hid, hindex]

/-- After a cycle, its rows have nothing more to write. -/
theorem observations_cycle (hp : s.Placed) (prev : Streaks) {a' : Answer}
    (hrows : a'.rows = a.rows) :
    observations cfg js (cycle cfg js (s, prev) a).1 a' = [] := by
  rw [observations, updateSpecs, List.filterMap_eq_nil_iff]
  intro new hnew
  obtain ⟨hjob, hon⟩ := (mem_snapshot (placed_cycle hp prev)).mp hnew
  obtain ⟨rec, -, hcase⟩ := job?_cycle hp prev hon hjob
  rw [show (a'.view (snapshot js (cycle cfg js (s, prev) a).1)).rows = a.rows from hrows]
  split at hcase
  case h_1 ho =>
    subst hcase
    cases hl : lookup (rowTable a.rows) new with
    | none => rfl
    | some st =>
      cases hm : mergeFields new st cfg.pollRuntimeUpdates cfg.collectClusters with
      | none => simp [hm]
      | some fields =>
        rw [observed_eq_some.mpr ⟨hl, fields, hm⟩] at ho
        cases ho
  case h_2 st ho =>
    obtain ⟨hl, fields, hm⟩ := observed_eq_some.mp ho
    subst hcase
    obtain ⟨id, hid⟩ := jobId_of_lookup hl
    have hsame :
      lookup (rowTable a.rows) (merged cfg.collectClusters rec rec st a.now₁ rec.revision)
        = some st := by
      rw [← hl]
      exact lookup_congr (by simp [merged, hid]) rfl
    rw [hsame, Option.bind_some, mergeFields_merged]
    rfl

end

/-- **Observations converge and erase nothing.**  Whatever a merge writes, the same observation
finds nothing to write after it; a known run time, start, finish or collected cluster stays known;
clusters are written only when they are collected; a difference in the run time alone counts if and
only if run times are watched.  And after any cycles, a cycle that is answered with the rows of the
one before it writes no observation. -/
theorem observations_converge (cfg : Config) (js : String) :
    (∀ (rec : JobRecord) (st : JobStatus) (ru cc : Bool) (fields : List Field) (now : Time),
      mergeFields rec st ru cc = some fields →
        let new := rec.rewrite now st.state rec.revision fields
        mergeFields new st ru cc = none ∧
        (rec.runTimeS ≠ none → new.runTimeS ≠ none) ∧
        (rec.startTime ≠ none → new.startTime ≠ none) ∧
        (rec.finishTime ≠ none → new.finishTime ≠ none) ∧
        (rec.sourceCluster ≠ none → new.sourceCluster ≠ none) ∧
        (rec.forwardCluster ≠ none → new.forwardCluster ≠ none) ∧
        ∀ v, (.sourceCluster v ∈ fields ∨ .forwardCluster v ∈ fields) → cc = true) ∧
    (∀ (rec : JobRecord) (st : JobStatus) (ru cc : Bool), st.state = rec.state →
      st.exitCode = rec.exitCode → keep st.startTime rec.startTime = rec.startTime →
      keep st.finishTime rec.finishTime = rec.finishTime →
      keep st.sourceCluster rec.sourceCluster = rec.sourceCluster →
      keep st.forwardCluster rec.forwardCluster = rec.forwardCluster →
      keep st.runTimeS rec.runTimeS ≠ rec.runTimeS →
      (mergeFields rec st ru cc ≠ none ↔ ru = true)) ∧
    ∀ (ops : List Op) (prev : Streaks) (answers : List Answer) (a a' : Answer), a'.rows = a.rows →
      let w := (answers ++ [a]).foldl (cycle cfg js) (afterOps ops, prev)
      observations cfg js w.1 a' = [] := by
  refine ⟨fun rec st ru cc fields now h => ?_, fun rec st ru cc h₁ h₂ h₃ h₄ h₅ h₆ h₇ =>
    mergeFields_runTime h₁ h₂ h₃ h₄ h₅ h₆ h₇, fun ops prev answers a a' hrows => ?_⟩
  · rw [rewrite_eq_merged rec h]
    refine ⟨mergeFields_merged .., fun hk => keep_ne_none hk, fun hk => keep_ne_none hk,
      fun hk => keep_ne_none hk, fun hk => ?_, fun hk => ?_, fun v hv =>
      collect_of_mem_mergeFields h hv⟩
    · rw [merged]
      dsimp only
      split_ifs
      · exact keep_ne_none hk
      · exact hk
    · rw [merged]
      dsimp only
      split_ifs
      · exact keep_ne_none hk
      · exact hk
  · have hplaced : ∀ (answers : List Answer) (w : InMemoryStore × Streaks), w.1.Placed →
        (answers.foldl (cycle cfg js) w).1.Placed := by
      intro answers
      induction answers with
      | nil => exact fun w hw => hw
      | cons b answers ih => exact fun w hw => ih _ (placed_cycle hw w.2)
    rw [List.foldl_append]
    exact observations_cycle (hplaced answers _ (represented_afterOps ops).placed) _ hrows

/-- A running job is seen running, with its times; clusters are not collected, and run times are not
watched. -/
theorem observations_converge_running :
    let st : JobStatus := ⟨7, none, .run, none, some 60, some 5, none, some "east", none⟩
    let fields : List Field := [.exitCode none, .runTimeS (some 60), .startTime (some 5),
      .finishTime none, .jobId (some 7)]
    let cfg : Config := ⟨3, true, 0, false, false⟩
    let w := [⟨[st], ∅, 0, 0, 0⟩].foldl (cycle cfg "js")
      (afterOps [.insertJobset 0 ⟨"js", 1, "", [], none⟩, .addJob 0 runningJob], ∅)
    mergeFields (runningJob.rewrite 0 .run 0 fields) st false false = none ∧
      (mergeFields runningJob { st with startTime := none, sourceCluster := none }
        false false ≠ none
        ↔ false = true) ∧
      (w.1.job? "js" "a").map (·.startTime) = some (some 5) ∧
      observations cfg "js" w.1 ⟨[st], ∅, 60, 60, 60⟩ = [] := by
  intro st fields cfg w
  obtain ⟨hmerge, htime, hpolls⟩ := observations_converge cfg "js"
  refine ⟨(hmerge runningJob st false false fields 0 (by decide)).1, ?_, by decide +kernel, ?_⟩
  · refine htime runningJob { st with startTime := none, sourceCluster := none } false false rfl rfl
      rfl rfl rfl rfl (by decide)
  · exact hpolls [.insertJobset 0 ⟨"js", 1, "", [], none⟩, .addJob 0 runningJob] ∅ []
      ⟨[st], ∅, 0, 0, 0⟩ ⟨[st], ∅, 60, 60, 60⟩ rfl

end Monitor

end Lsfmgr
