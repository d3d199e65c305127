import Mathlib
import Lsfmgr.Monitor.Merge

/-!
# Monitor/Aggregate — one observation for the elements of an array

A record that stands for a whole array is in progress while an element is on LSF, and takes its end
from all of them.  Which suspended or pending element gives the state depends on the order of the
rows; whether the array runs, has ended or has failed does not, nor do its times.
-/

namespace Lsfmgr

variable {id : ℕ} {elems : List JobStatus}

/-- A state a source reports is either on LSF or final. -/
theorem JobState.isTerminal_iff_of_isReported {s : JobState} (h : s.isReported = true) :
    s.isTerminal = true ↔ s.isOnLsf = false := by
  cases s <;> simp_all [isReported, isTerminal, isOnLsf]

theorem JobState.done_or_exit {s : JobState} (h : s.isReported = true) (hoff : s.isOnLsf = false) :
    s = .done ∨ s = .exit := by
  cases s <;> simp_all [isReported, isOnLsf]

/-- With an element on LSF, the state is that of one, and `RUN` if one runs. -/
theorem state_aggregate_live (h : ∃ e ∈ elems, e.state.isOnLsf = true) :
    (aggregateElements id elems).state.isOnLsf = true ∧
      ((aggregateElements id elems).state = .run ↔ ∃ e ∈ elems, e.state = .run) := by
  set on := elems.filter fun e => e.state.isOnLsf with hon
  have hmem {e : JobStatus} : e ∈ on ↔ e ∈ elems ∧ e.state.isOnLsf = true := by
    rw [hon, List.mem_filter]
  obtain ⟨first, rest, hcons⟩ : ∃ first rest, on = first :: rest := by
    obtain ⟨e, he, hlive⟩ := h
    exact List.exists_cons_of_ne_nil (List.ne_nil_of_mem (hmem.mpr ⟨he, hlive⟩))
  have hstate : (aggregateElements id elems).state =
      ((on.find? fun e => e.state = .run).getD first).state := by
    simp only [aggregateElements, ← hon]
    rw [hcons]
  rw [hstate]
  cases hf : on.find? fun e => e.state = .run with
  | some e =>
    have hrun : e.state = .run := by simpa using List.find?_some hf
    have he := hmem.mp (List.mem_of_find?_eq_some hf)
    rw [Option.getD_some]
    exact ⟨he.2, fun _ => ⟨e, he.1, hrun⟩, fun _ => hrun⟩
  | none =>
    have hnone : ∀ e ∈ elems, e.state ≠ .run := fun e he hrun => by
      have := List.find?_eq_none.mp hf e (hmem.mpr ⟨he, by rw [hrun]; rfl⟩)
      simp [hrun] at this
    have hfirst := hmem.mp (hcons ▸ List.mem_cons_self : first ∈ on)
    rw [Option.getD_none]
    refine ⟨hfirst.2, fun hrun => absurd hrun (hnone _ hfirst.1), ?_⟩
    rintro ⟨e, he, hrun⟩
    exact absurd hrun (hnone e he)

/-- With none on LSF, the array failed if an element did. -/
theorem state_aggregate_ended (h : ∀ e ∈ elems, e.state.isOnLsf = false) :
    (aggregateElements id elems).state =
      if ∃ e ∈ elems, e.state = .exit then .exit else .done := by
  have hnil : (elems.filter fun e => e.state.isOnLsf) = [] :=
    List.filter_eq_nil_iff.mpr fun e he => by simp [h e he]
  simp only [aggregateElements, hnil]
  by_cases hex : ∃ e ∈ elems, e.state = .exit
  · have hbad : ¬ (elems.filter fun e => e.state = .exit).isEmpty = true := by
      rw [List.isEmpty_iff, List.filter_eq_nil_iff]
      obtain ⟨e, he, hexit⟩ := hex
      exact fun hall => hall e he (by simp [hexit])
    rw [if_neg hbad, if_pos hex]
  · have hbad : (elems.filter fun e => e.state = .exit).isEmpty = true := by
      rw [List.isEmpty_iff, List.filter_eq_nil_iff]
      exact fun e he hexit => hex ⟨e, he, by simpa using hexit⟩
    rw [if_pos hbad, if_neg hex]

variable (id) in
/-- The states of an array whose elements a source reports. -/
theorem state_aggregate (hne : elems ≠ []) (hrep : ∀ e ∈ elems, e.state.isReported = true) :
    let state := (aggregateElements id elems).state
    (state.isTerminal = true ↔ ∀ e ∈ elems, e.state.isTerminal = true) ∧
      (state = .run ↔ ∃ e ∈ elems, e.state = .run) ∧
      (state = .exit ↔ (∀ e ∈ elems, e.state.isTerminal = true) ∧ ∃ e ∈ elems, e.state = .exit) ∧
      (state = .done ↔ ∀ e ∈ elems, e.state = .done) := by
  intro state
  by_cases hlive : ∃ e ∈ elems, e.state.isOnLsf = true
  · obtain ⟨hon, hrun⟩ : state.isOnLsf = true ∧ (state = .run ↔ ∃ e ∈ elems, e.state = .run) :=
      state_aggregate_live hlive
    obtain ⟨e, he, heon⟩ := hlive
    have hnot : ¬ ∀ e ∈ elems, e.state.isTerminal = true := fun hall => by
      have hend := JobState.not_isTerminal_of_isOnLsf heon
      rw [hall e he] at hend
      cases hend
    refine ⟨⟨fun h => ?_, fun h => absurd h hnot⟩, hrun, ⟨fun h => ?_, fun h => absurd h.1 hnot⟩,
      fun h => ?_, fun h => ?_⟩
    · rw [JobState.not_isTerminal_of_isOnLsf hon] at h
      cases h
    · rw [h] at hon
      cases hon
    · rw [h] at hon
      cases hon
    · rw [h e he] at heon
      cases heon
  · have hoff : ∀ e ∈ elems, e.state.isOnLsf = false := fun e he => by
      rw [← Bool.not_eq_true]
      exact fun h => hlive ⟨e, he, h⟩
    have hall : ∀ e ∈ elems, e.state.isTerminal = true := fun e he =>
      (JobState.isTerminal_iff_of_isReported (hrep e he)).mpr (hoff e he)
    have hcases : ∀ e ∈ elems, e.state = .done ∨ e.state = .exit := fun e he =>
      JobState.done_or_exit (hrep e he) (hoff e he)
    have hnorun : ¬ ∃ e ∈ elems, e.state = .run := fun ⟨e, he, h⟩ => by
      have := hoff e he
      rw [h] at this
      cases this
    have hstate : state = if ∃ e ∈ elems, e.state = .exit then .exit else .done :=
      state_aggregate_ended hoff
    obtain ⟨e, he⟩ := List.exists_mem_of_ne_nil elems hne
    by_cases hex : ∃ e ∈ elems, e.state = .exit
    · rw [hstate, if_pos hex]
      refine ⟨⟨fun _ => hall, fun _ => rfl⟩,
        by simpa using hnorun, ⟨fun _ => ⟨hall, hex⟩, fun _ => rfl⟩,
        ⟨fun h => (by cases h), fun h => ?_⟩⟩
      obtain ⟨x, hx, hexit⟩ := hex
      rw [h x hx] at hexit
      cases hexit
    · rw [hstate, if_neg hex]
      refine ⟨⟨fun _ => hall, fun _ => rfl⟩, by simpa using hnorun, ⟨fun h => (by cases h),
        fun h => absurd h.2 hex⟩, ⟨fun _ x hx => ?_, fun _ => rfl⟩⟩
      exact (hcases x hx).resolve_right fun h => hex ⟨x, hx, h⟩

/-! ## Times -/

/-- The known values of a field. -/
def known (field : JobStatus → Option ℤ) (elems : List JobStatus) : Set ℤ :=
  {t | ∃ e ∈ elems, field e = some t}

theorem mem_filterMap_known {field : JobStatus → Option ℤ} {t : ℤ} :
    t ∈ elems.filterMap field ↔ t ∈ known field elems := List.mem_filterMap

theorem min?_filterMap {field : JobStatus → Option ℤ} {t : ℤ} :
    (elems.filterMap field).min? = some t ↔ IsLeast (known field elems) t := by
  rw [List.min?_eq_some_iff, mem_filterMap_known, IsLeast, mem_lowerBounds]
  simp only [mem_filterMap_known]

theorem max?_filterMap {field : JobStatus → Option ℤ} {t : ℤ} :
    (elems.filterMap field).max? = some t ↔ IsGreatest (known field elems) t := by
  rw [List.max?_eq_some_iff, mem_filterMap_known, IsGreatest, mem_upperBounds]
  simp only [mem_filterMap_known]

theorem filterMap_eq_nil_iff_known {field : JobStatus → Option ℤ} :
    elems.filterMap field = [] ↔ known field elems = ∅ := by
  rw [List.eq_nil_iff_forall_not_mem, Set.eq_empty_iff_forall_notMem]
  simp only [mem_filterMap_known]

/-- What is said of the elements in any order. -/
theorem known_perm {field : JobStatus → Option ℤ} {elems' : List JobStatus}
    (h : elems'.Perm elems) : known field elems' = known field elems := by
  ext t
  simp only [known, Set.mem_ofPred_eq, h.mem_iff]

/-- The times of an array. -/
theorem times_aggregate (id : ℕ) (elems : List JobStatus) :
    let st := aggregateElements id elems
    (∀ t, st.startTime = some t ↔ IsLeast (known (·.startTime) elems) t) ∧
      (st.startTime = none ↔ known (·.startTime) elems = ∅) ∧
      (∀ t, st.runTimeS = some t ↔ IsGreatest (known (·.runTimeS) elems) t) ∧
      (st.runTimeS = none ↔ known (·.runTimeS) elems = ∅) ∧
      ((∃ e ∈ elems, e.state.isOnLsf = true) → st.finishTime = none) ∧
      ((∀ e ∈ elems, e.state.isOnLsf = false) →
        (∀ t, st.finishTime = some t ↔ IsGreatest (known (·.finishTime) elems) t) ∧
          (st.finishTime = none ↔ known (·.finishTime) elems = ∅)) := by
  refine ⟨fun t => min?_filterMap, ?_, fun t => max?_filterMap, ?_, fun h => ?_, fun h => ?_⟩
  · exact List.min?_eq_none_iff.trans filterMap_eq_nil_iff_known
  · exact List.max?_eq_none_iff.trans filterMap_eq_nil_iff_known
  · obtain ⟨e, he, hlive⟩ := h
    have hne : ¬ (elems.filter fun e => e.state.isOnLsf).isEmpty = true := by
      rw [List.isEmpty_iff, List.filter_eq_nil_iff]
      exact fun hall => hall e he hlive
    exact if_neg hne
  · have hnil : (elems.filter fun e => e.state.isOnLsf).isEmpty = true := by
      rw [List.isEmpty_iff, List.filter_eq_nil_iff]
      exact fun e he => by simp [h e he]
    have hfinish :
        (aggregateElements id elems).finishTime = (elems.filterMap (·.finishTime)).max? :=
      if_pos hnil
    rw [hfinish]
    exact ⟨fun t => max?_filterMap, List.max?_eq_none_iff.trans filterMap_eq_nil_iff_known⟩

/-- The times do not depend on the order of the elements. -/
theorem times_aggregate_perm (id : ℕ) {elems' : List JobStatus} (h : elems'.Perm elems) :
    (aggregateElements id elems').startTime = (aggregateElements id elems).startTime ∧
      (aggregateElements id elems').runTimeS = (aggregateElements id elems).runTimeS ∧
      (aggregateElements id elems').finishTime = (aggregateElements id elems).finishTime := by
  obtain ⟨hstart, -, hrun, -, hlive, hended⟩ := times_aggregate id elems
  obtain ⟨hstart', -, hrun', -, hlive', hended'⟩ := times_aggregate id elems'
  simp only [known_perm h, h.mem_iff] at hstart' hrun' hlive' hended'
  refine ⟨Option.ext fun t => (hstart' t).trans (hstart t).symm,
    Option.ext fun t => (hrun' t).trans (hrun t).symm, ?_⟩
  by_cases hon : ∃ e ∈ elems, e.state.isOnLsf = true
  · rw [hlive hon, hlive' hon]
  · have hoff : ∀ e ∈ elems, e.state.isOnLsf = false := fun e he => by
      rw [← Bool.not_eq_true]
      exact fun hl => hon ⟨e, he, hl⟩
    exact Option.ext fun t => ((hended' hoff).1 t).trans ((hended hoff).1 t).symm

/-- **An array is reported as a whole.**  Of elements with states a source reports: the array has
ended if and only if all have, runs if and only if one does, has failed if and only if all have
ended and one failed, and is done if and only if all are; it started with the first known start, ran
for the longest known run time, and finished with the last known finish if none is on LSF.  None of
this depends on the order of the elements. -/
theorem aggregate_reports (id : ℕ) (elems : List JobStatus) (hne : elems ≠ [])
    (hrep : ∀ e ∈ elems, e.state.isReported = true) :
    let st := aggregateElements id elems
    (st.state.isTerminal = true ↔ ∀ e ∈ elems, e.state.isTerminal = true) ∧
      (st.state = .run ↔ ∃ e ∈ elems, e.state = .run) ∧
      (st.state = .exit ↔ (∀ e ∈ elems, e.state.isTerminal = true) ∧ ∃ e ∈ elems, e.state = .exit) ∧
      (st.state = .done ↔ ∀ e ∈ elems, e.state = .done) ∧
      (∀ t, st.startTime = some t ↔ IsLeast (known (·.startTime) elems) t) ∧
      (st.startTime = none ↔ known (·.startTime) elems = ∅) ∧
      (∀ t, st.runTimeS = some t ↔ IsGreatest (known (·.runTimeS) elems) t) ∧
      (st.runTimeS = none ↔ known (·.runTimeS) elems = ∅) ∧
      ((∃ e ∈ elems, e.state.isOnLsf = true) → st.finishTime = none) ∧
      ((∀ e ∈ elems, e.state.isOnLsf = false) →
        (∀ t, st.finishTime = some t ↔ IsGreatest (known (·.finishTime) elems) t) ∧
          (st.finishTime = none ↔ known (·.finishTime) elems = ∅)) ∧
      ∀ elems' : List JobStatus, elems'.Perm elems →
        let st' := aggregateElements id elems'
        (st'.state.isTerminal = true ↔ st.state.isTerminal = true) ∧
          (st'.state = .run ↔ st.state = .run) ∧ (st'.state = .exit ↔ st.state = .exit) ∧
          (st'.state = .done ↔ st.state = .done) ∧ st'.startTime = st.startTime ∧
          st'.runTimeS = st.runTimeS ∧ st'.finishTime = st.finishTime := by
  intro st
  obtain ⟨hterm, hrun, hexit, hdone⟩ := state_aggregate id hne hrep
  obtain ⟨ht₁, ht₂, ht₃, ht₄, ht₅, ht₆⟩ := times_aggregate id elems
  refine ⟨hterm, hrun, hexit, hdone, ht₁, ht₂, ht₃, ht₄, ht₅, ht₆, fun elems' h => ?_⟩
  have hne' : elems' ≠ [] := fun hnil => hne (List.nil_perm.mp (hnil ▸ h))
  obtain ⟨hterm', hrun', hexit', hdone'⟩ := state_aggregate id hne' fun e he =>
    hrep e (h.mem_iff.mp he)
  simp only [h.mem_iff] at hterm' hrun' hexit' hdone'
  obtain ⟨hs, hr, hf⟩ := times_aggregate_perm id h
  exact ⟨hterm'.trans hterm.symm, hrun'.trans hrun.symm, hexit'.trans hexit.symm,
    hdone'.trans hdone.symm, hs, hr, hf⟩

/-- One element runs, one is done and one failed. -/
theorem aggregate_reports_three :
    let elems : List JobStatus :=
      [⟨7, some 1, .done, some 0, some 30, some 10, some 40, none, none⟩,
        ⟨7, some 2, .exit, some 3, some 5, some 12, some 17, none, none⟩,
        ⟨7, some 3, .run, none, some 9, some 20, none, none, none⟩]
    (aggregateElements 7 elems).state = .run ∧ (aggregateElements 7 elems).finishTime = none := by
  intro elems
  obtain ⟨-, hrun, -, -, -, -, -, -, hlive, -⟩ := aggregate_reports 7 elems (by decide) (by decide)
  exact ⟨hrun.mpr (by decide), hlive (by decide)⟩

end Lsfmgr
