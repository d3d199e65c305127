import Mathlib
import Lsfmgr.Monitor.Lost
import Lsfmgr.Store.Counts

/-!
# Monitor/Frame — what a poll leaves alone

A query cycle computes its writes from a snapshot and makes them later, in two batches, while other
threads write to the same records.  Each write asks that generation, job id and state still are
those of the snapshot, so a record that changed in one of the three is not written; and a record
that is written keeps every field the poll does not observe, with whatever was written to it
meanwhile.
-/

namespace Lsfmgr

open Machinery

namespace InMemoryStore

variable {s : InMemoryStore}

/-- The store after further operations. -/
def after (s : InMemoryStore) (ops : List Op) : InMemoryStore :=
  ops.foldl (fun s op => (s.perform op).2) s

theorem Represented.after (h : s.Represented) (ops : List Op) : (s.after ops).Represented := by
  induction ops generalizing s with
  | nil => exact h
  | cons op ops ih => exact ih (h.perform op)

/-- A batch of safe items leaves the other jobsets alone. -/
theorem transitionMany_other (now : Time) (js : String) (hp : s.Placed)
    {specs : List TransitionSpec} (hsafe : ∀ spec ∈ specs, SafeSpec spec) {js' k : String}
    (hne : js' ≠ js) : (s.transitionMany now js specs).2.job? js' k = s.job? js' k := by
  have hkey : (specs.findSome? fun spec => spec.fields.findSome? Field.keyName?) = none :=
    List.findSome?_eq_none_iff.mpr fun spec hm =>
      (findSome?_eq_none_of_plain (hsafe spec hm).1).2
  rw [transitionMany, hkey]
  induction specs generalizing s with
  | nil => rfl
  | cons spec specs ih =>
    obtain ⟨⟨hplain, hguard⟩, hrest⟩ := List.forall_mem_cons.mp hsafe
    have hkey' : (specs.findSome? fun spec => spec.fields.findSome? Field.keyName?) = none :=
      List.findSome?_eq_none_iff.mpr fun spec hm =>
        (findSome?_eq_none_of_plain (hrest spec hm).1).2
    rcases hj : s.job? js spec.jobKey with _ | old
    · simpa [transitionManyImpl, hj] using ih hp hrest hkey'
    · obtain ⟨b, hb⟩ := hguard old
      cases b with
      | false => simpa [transitionManyImpl, hj, hb] using ih hp hrest hkey'
      | true =>
        obtain ⟨s₁, hs₁, hw⟩ := replaceRec_wrote now hp hj hplain
          (some (spec.newState.getD old.state))
        have hsame : s₁.job? js' k = s.job? js' k := by
          rw [hw.job?, if_neg fun hc => hne hc.1]
        simpa [transitionManyImpl, hj, hb, hs₁, hsame] using ih (hw.placed hp) hrest hkey'

end InMemoryStore

namespace Monitor

open InMemoryStore

/-- Generation, job id or state differ from the snapshot, or the snapshot has no such record. -/
def ChangedSince (snapshot : List JobRecord) (cur : JobRecord) : Prop :=
  ∀ rec ∈ snapshot, rec.jobKey = cur.jobKey →
    cur.generation ≠ rec.generation ∨ cur.jobId ≠ rec.jobId ∨ cur.state ≠ rec.state

/-- `r` with the observed fields of `new`, the time and the revision. -/
def observedFrom (r new : JobRecord) : JobRecord :=
  { r with
    state := new.state, exitCode := new.exitCode, runTimeS := new.runTimeS
    startTime := new.startTime, finishTime := new.finishTime
    sourceCluster := new.sourceCluster, forwardCluster := new.forwardCluster
    updatedAt := new.updatedAt, revision := new.revision }

/-- `r` lost: with the state, reason, time and revision of `new`. -/
def lostFrom (r new : JobRecord) : JobRecord :=
  { r with
    state := new.state, failReason := new.failReason
    updatedAt := new.updatedAt, revision := new.revision }

/-- **What a batch of a poll does to the records**: those of other jobsets and those that changed
since the snapshot stay as they are, and a record that is written has its unobserved fields from
what it was just before (`rest`). -/
structure Framed (js : String) (snapshot : List JobRecord)
    (rest : JobRecord → JobRecord → JobRecord) (s s' : InMemoryStore) : Prop where
  other : ∀ js' k, js' ≠ js → s'.job? js' k = s.job? js' k
  gone : ∀ k, s.job? js k = none → s'.job? js k = none
  changed : ∀ k cur, s.job? js k = some cur → ChangedSince snapshot cur → s'.job? js k = some cur
  written : ∀ k cur, s.job? js k = some cur →
    ∃ new, s'.job? js k = some new ∧ (new = cur ∨ new = rest cur new)

section

variable {cfg : Config} {v : View} {js : String} {s : InMemoryStore} {now : Time}

/-- A batch of compare-and-set writes against a snapshot. -/
theorem framed_of_specs {snapshot : List JobRecord} {rest : JobRecord → JobRecord → JobRecord}
    {specs : List TransitionSpec} (hp : s.Placed) (hnd : (specs.map (·.jobKey)).Nodup)
    (hspec : ∀ spec ∈ specs, ∃ rec ∈ snapshot, ∃ st fields, (∀ f ∈ fields, f.Plain) ∧
      spec = ⟨rec.jobKey, some st, Guard.of (unchanged rec), fields⟩ ∧
      ∀ cur, unchanged rec cur = true → cur.rewrite now st cur.revision fields
        = rest cur (cur.rewrite now st cur.revision fields)) :
    Framed js snapshot rest s (s.transitionMany now js specs).2 := by
  have hsafe : ∀ spec ∈ specs, SafeSpec spec := by
    intro spec hmem
    obtain ⟨rec, -, st, fields, hplain, rfl, -⟩ := hspec spec hmem
    exact safeSpec_of hplain
  obtain ⟨out, s', hrun, -, hread⟩ := transitionMany_ok js now hp hsafe hnd
  have hrun' : (s.transitionMany now js specs).2 = s' := by rw [hrun]
  refine ⟨fun js' k hne => transitionMany_other now js hp hsafe hne, ?_, ?_, ?_⟩
  · intro k hnone
    rw [hrun', hread, hnone, Option.map_none]
  · intro k cur hcur hchanged
    rw [hrun', hread, hcur, Option.map_some]
    rcases hf : specs.find? (·.jobKey = k) with _ | spec
    · rw [hf]
      rfl
    · rw [hf]
      have hk : spec.jobKey = k := by simpa using List.find?_some hf
      obtain ⟨rec, hrec, st, fields, -, rfl, -⟩ := hspec spec (List.mem_of_find?_eq_some hf)
      have hrefused : unchanged rec cur = false := by
        rw [Bool.eq_false_iff]
        intro hu
        obtain ⟨hexec, hid, hst⟩ := unchanged_iff.mp hu
        obtain ⟨-, hkey, hgen⟩ := JobRecord.sameExecution_iff.mp hexec
        rcases hchanged rec hrec hkey.symm with h | h | h
        · exact h hgen
        · exact h hid
        · exact h hst
      simp [batchWrite_of, hrefused]
  · intro k cur hcur
    rw [hrun', hread, hcur, Option.map_some]
    rcases hf : specs.find? (·.jobKey = k) with _ | spec
    · rw [hf]
      exact ⟨cur, rfl, .inl rfl⟩
    · rw [hf]
      obtain ⟨rec, hrec, st, fields, -, rfl, hrest⟩ := hspec spec (List.mem_of_find?_eq_some hf)
      refine ⟨_, rfl, ?_⟩
      rw [Option.elim_some, batchWrite_of]
      split
      case isTrue hu => exact .inr (hrest cur hu)
      case isFalse => exact .inl rfl

/-- Only a record with a job id is found in an answer. -/
theorem jobId_of_lookup {rows : Dict (ℕ × Option ℕ) JobStatus} {rec : JobRecord} {st : JobStatus}
    (h : lookup rows rec = some st) : ∃ id, rec.jobId = some id := by
  rcases hid : rec.jobId with _ | id
  · simp [lookup, hid] at h
  · exact ⟨id, rfl⟩

/-- An observation writes observed fields only; the job id it writes is the one already there. -/
theorem rewrite_observed {rec cur : JobRecord} {st : JobStatus} {ru cc : Bool}
    {fields : List Field} {rows : Dict (ℕ × Option ℕ) JobStatus}
    (hst : lookup rows rec = some st) (hm : mergeFields rec st ru cc = some fields)
    (hu : unchanged rec cur = true) : cur.rewrite now st.state cur.revision fields
      = observedFrom cur (cur.rewrite now st.state cur.revision fields) := by
  obtain ⟨id, hid⟩ := jobId_of_lookup hst
  obtain ⟨-, hcur, -⟩ := unchanged_iff.mp hu
  rw [hid] at hcur
  simp only [mergeFields] at hm
  split at hm
  case isFalse => cases hm
  case isTrue =>
    obtain rfl := Option.some.inj hm
    cases cc <;> simp [JobRecord.rewrite, observedFrom, Field.put, hid, hcur]

theorem framed_updates (hp : s.Placed) (hnd : (v.targets.map (·.jobKey)).Nodup) (now : Time) :
    Framed js v.targets observedFrom s (s.transitionMany now js (updateSpecs cfg v)).2 := by
  refine framed_of_specs hp (nodup_updateSpecs hnd) fun spec hspec => ?_
  obtain ⟨rec, hrec, st, fields, hst, hm, rfl⟩ := mem_updateSpecs hspec
  exact ⟨rec, hrec, st.state, fields, mergeFields_plain hm, rfl, fun cur hu =>
    rewrite_observed hst hm hu⟩

theorem framed_losses (hp : s.Placed) (hnd : (v.targets.map (·.jobKey)).Nodup) (prev : Streaks)
    (now : Time) : Framed js v.targets lostFrom s
      (s.transitionMany now js (lostSpecs (lostRecords cfg v prev))).2 := by
  refine framed_of_specs hp (nodup_lostSpecs (nodup_lostRecords hnd)) fun spec hspec => ?_
  obtain ⟨rec, hrec, rfl⟩ := mem_lostSpecs hspec
  exact ⟨rec, (mem_lostRecords.mp hrec).1, .lost, _,
    by simp [Field.Plain, Field.badName?, Field.keyName?], rfl, fun cur _ => rfl⟩

/-- The snapshot of a cycle has each key once. -/
theorem nodup_snapshot (hp : s.Placed) {targets : List JobRecord}
    (h : s.getJobs js (some JobState.isOnLsf) = .ok targets) :
    (targets.map (·.jobKey)).Nodup := by
  rw [InMemoryStore.getJobs] at h
  split at h
  case isFalse => cases h
  case isTrue =>
    obtain rfl := Except.ok.inj h
    refine (List.filter_sublist.map _).nodup ?_
    rcases hj : s.jobs.get? js with _ | d
    · simp
    · simpa [map_jobKey_values hp hj] using d.nodup_keys

end

/-- **A poll never overwrites what happened since its snapshot.**  The snapshot is taken of the
store after `ops`; any operations `meanwhile` come before the first batch, and any operations
`between` come before the second. -/
theorem poll_framed (cfg : Config) (js : String) (ops meanwhile between : List Op)
    (targets : List JobRecord) (rows : List JobStatus) (failed : Finset ℕ) (prev : Streaks)
    (judgedAt now₁ now₂ : Time)
    (hsnap : (afterOps ops).getJobs js (some JobState.isOnLsf) = .ok targets) :
    let v : View := ⟨targets, rows, failed, judgedAt⟩
    let s₁ := (afterOps ops).after meanwhile
    let s₂ := (s₁.transitionMany now₁ js (updateSpecs cfg v)).2
    let s₃ := s₂.after between
    let s₄ := (s₃.transitionMany now₂ js (lostSpecs (lostRecords cfg v prev))).2
    Framed js targets observedFrom s₁ s₂ ∧ Framed js targets lostFrom s₃ s₄ := by
  intro v s₁ s₂ s₃ s₄
  have h := represented_afterOps ops
  have hnd : (v.targets.map (·.jobKey)).Nodup := nodup_snapshot h.placed hsnap
  have h₁ : s₁.Represented := h.after meanwhile
  have h₂ : s₂.Represented := h₁.transitionMany now₁ js _
  have h₃ : s₃.Represented := h₂.after between
  exact ⟨framed_updates h₁.placed hnd now₁, framed_losses h₃.placed hnd prev now₂⟩

/-- A job that runs when the snapshot is taken. -/
def runningJob : JobRecord :=
  { jobId := some 7, jobsetId := "js", jobKey := "a", state := .run, generation := 0
    updatedAt := some 0 }

/-- It is found done, after it was marked as killed and given user data. -/
theorem poll_framed_markedJob :
    let ops : List Op := [.insertJobset 0 ⟨"js", 1, "", [], none⟩, .addJob 0 runningJob]
    let meanwhile : List Op := [.transition 1 "js" "a" none none [.killed true],
      .transition 2 "js" "a" none none [.userData (some "{}")]]
    let cfg : Config := ⟨3, true, 0, true, false⟩
    let v : View := ⟨[runningJob], [⟨7, none, .done, some 0, none, none, none, none, none⟩], ∅, 3⟩
    let s₁ := (afterOps ops).after meanwhile
    let s₂ := (s₁.transitionMany 4 "js" (updateSpecs cfg v)).2
    (s₂.job? "js" "a").map (fun r => (r.state, r.killed, r.userData))
        = some (.done, true, some "{}") ∧
      Framed "js" [runningJob] observedFrom s₁ s₂ := by
  intro ops meanwhile cfg v s₁ s₂
  have hsnap : (afterOps ops).getJobs "js" (some JobState.isOnLsf) = .ok [runningJob] := by
    decide +kernel
  exact ⟨by decide +kernel,
    (poll_framed cfg "js" ops meanwhile [] [runningJob] v.rows ∅ ∅ 3 4 5 hsnap).1⟩

end Monitor

end Lsfmgr
