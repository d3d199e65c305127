import Mathlib
import Lsfmgr.Kill.Targets

/-!
# Kill/Requery — `_confirm_by_query`, what became of the targets of a timed-out `bkill`

A target is gone when its job has no row, or none of the rows it selects is on LSF; this kill ended
it unless all these rows are `DONE`.  A target whose query failed, or one for elements of a job that
answers with a folded row, is left pending.
-/

namespace Lsfmgr.Kill

open Machinery

/-- The decision about one target. -/
inductive Verdict
  | pending
  /-- Gone, by this kill. -/
  | byKill
  /-- Gone, and `DONE`. -/
  | natural
  deriving DecidableEq

def Verdict.isGone : Verdict → Bool
  | .pending => false
  | .byKill | .natural => true

/-- What `_confirm_by_query` returns. -/
structure Confirmed where
  gone : Finset Text := ∅
  byKill : Finset Text := ∅
  calls : ℕ := 0

section

variable (py : Python)

/-- The decision about a target that has rows of its job. -/
def judgeRows (mine : List JobStatus) (cls : Classes) : Verdict :=
  if (cls.exact ≠ ∅ ∨ cls.ranges ≠ []) ∧ mine.any (·.arrayIndex = none) then .pending
  else
    let hit := matching mine cls
    if hit.any (·.state.isOnLsf) then .pending
    else if hit = [] ∨ hit.any (·.state ≠ .done) then .byKill
    else .natural

/-- The decision about a target. -/
def judge (sts : List JobStatus) (failed : Finset ℕ) (t : Text) : Except PyError Verdict :=
  match targetParentId py t with
  | .error e => .error e
  | .ok none => .ok .pending
  | .ok (some pid) =>
    if pid ∈ failed then .ok .pending
    else
      let mine := sts.filter (·.jobId = pid)
      if mine = [] then .ok .byKill
      else (classifyTargets py [t]).map (judgeRows mine)

/-- The parent ids of the targets that have one. -/
def parentIds (targets : Finset Text) : Finset ℕ :=
  targets.biUnion fun t =>
    match targetParentId py t with
    | .ok (some pid) => {pid}
    | _ => ∅

/-- The targets with a decision. -/
def judged (sts : List JobStatus) (failed : Finset ℕ) (targets : Finset Text)
    (p : Verdict → Bool) : Finset Text :=
  targets.filter fun t => (judge py sts failed t).toOption.any p

/-- `_confirm_by_query`; the query answers with rows and failed ids, or raises (`none`).  The
targets are a set, and whichever of them cannot be read raises. -/
def confirmByQuery (answer : List ℕ → Option (List JobStatus × Finset ℕ)) (targets : Finset Text) :
    Except PyError Confirmed :=
  if ∃ t ∈ targets, (targetParentId py t).isOk = false then .error .valueError
  else
    let pids := (parentIds py targets).sort (· ≤ ·)
    if pids = [] then .ok {}
    else
      match answer pids with
      | none => .ok { calls := 1 }
      | some (sts, failed) =>
        if ∃ t ∈ targets, (judge py sts failed t).isOk = false then .error .valueError
        else .ok
          { gone := judged py sts failed targets Verdict.isGone
            byKill := judged py sts failed targets (· = .byKill), calls := 1 }

/-- `int` takes the digits of the target. -/
def Readable (t : Text) : Prop :=
  (targetParentId py t).isOk = true ∧ (classifyTarget py t).isOk = true

instance (t : Text) : Decidable (Readable py t) := inferInstanceAs (Decidable (_ ∧ _))

end

/-- The row is one of those the target denotes. -/
def Matches (sel : Selector) (st : JobStatus) : Prop :=
  st.jobId = sel.jobId ∧ sel.selects st.arrayIndex = true

/-! ## The decision, in terms of the rows -/

variable {py : Python}

theorem mem_matching_iff {sel : Selector} {pool : List JobStatus} {st : JobStatus} :
    st ∈ matching pool (Classes.add {} (some sel)) ↔ st ∈ pool ∧ Matches sel st := by
  rw [matching, List.mem_filter, hit_add_iff, Matches]

theorem part_add_iff (sel : Selector) :
    ((Classes.add {} (some sel)).exact ≠ ∅ ∨ (Classes.add {} (some sel)).ranges ≠ []) ↔
      sel.isPart = true := by
  cases sel <;> simp [Classes.add, Selector.isPart]

/-- A target that denotes `sel` is gone if it does not face a folded row and none of the rows it
selects is on LSF. -/
theorem isGone_judgeRows_iff (sel : Selector) (mine : List JobStatus) :
    (judgeRows mine (Classes.add {} (some sel))).isGone = true ↔
      ¬ (sel.isPart = true ∧ ∃ st ∈ mine, st.arrayIndex = none) ∧
        ∀ st ∈ mine, Matches sel st → st.state.isOnLsf = false := by
  have hfolded : mine.any (·.arrayIndex = none) = true ↔ ∃ st ∈ mine, st.arrayIndex = none := by
    simp
  have hlive : (matching mine (Classes.add {} (some sel))).any (·.state.isOnLsf) = true ↔
      ∃ st ∈ mine, Matches sel st ∧ st.state.isOnLsf = true := by
    simp only [List.any_eq_true, mem_matching_iff, and_assoc]
  rw [judgeRows]
  dsimp only
  split_ifs with hpart honlsf hdone
  · rw [part_add_iff, hfolded] at hpart
    simp only [Verdict.isGone, Bool.false_eq_true, false_iff]
    exact fun hnot => absurd hpart hnot.1
  · obtain ⟨st, hst, hm, hl⟩ := hlive.mp honlsf
    simp only [Verdict.isGone, Bool.false_eq_true, false_iff, not_and]
    intro _ hall
    simp [hall st hst hm] at hl
  all_goals
    rw [part_add_iff, hfolded] at hpart
    refine ⟨fun _ => ⟨hpart, fun st hst hm => ?_⟩, fun _ => rfl⟩
    by_contra hl
    exact honlsf (hlive.mpr ⟨st, hst, hm, by simpa using hl⟩)

/-- It was not this kill if there are such rows and all are `DONE`. -/
theorem judgeRows_natural_iff (sel : Selector) (mine : List JobStatus)
    (h : (judgeRows mine (Classes.add {} (some sel))).isGone = true) :
    judgeRows mine (Classes.add {} (some sel)) ≠ .byKill ↔
      (∃ st ∈ mine, Matches sel st) ∧ ∀ st ∈ mine, Matches sel st → st.state = .done := by
  have hnil : matching mine (Classes.add {} (some sel)) = [] ↔ ¬ ∃ st ∈ mine, Matches sel st := by
    rw [List.eq_nil_iff_forall_not_mem]
    simp only [mem_matching_iff, not_and, not_exists]
  have hother : (matching mine (Classes.add {} (some sel))).any (·.state ≠ .done) = true ↔
      ∃ st ∈ mine, Matches sel st ∧ st.state ≠ .done := by
    simp only [List.any_eq_true, mem_matching_iff, and_assoc, decide_eq_true_eq]
  revert h
  rw [judgeRows]
  dsimp only
  split_ifs with hpart honlsf hdone
  · simp [Verdict.isGone]
  · simp [Verdict.isGone]
  · intro _
    rw [hnil, hother] at hdone
    simp only [ne_eq, not_true_eq_false, false_iff]
    rintro ⟨hex, hall⟩
    rcases hdone with hnone | ⟨st, hst, hm, hne⟩
    · exact hnone hex
    · exact hne (hall st hst hm)
  · intro _
    rw [hnil, hother, not_or, not_not] at hdone
    simp only [ne_eq, reduceCtorEq, not_false_eq_true, true_iff]
    exact ⟨hdone.1, fun st hst hm => by_contra fun hne => hdone.2 ⟨st, hst, hm, hne⟩⟩

/-! ## One target of the set -/

/-- A target that is an element or a range faces a folded row of its job. -/
def FacesFolded (sel : Selector) (sts : List JobStatus) : Prop :=
  sel.isPart = true ∧ ∃ st ∈ sts, st.jobId = sel.jobId ∧ st.arrayIndex = none

variable {sts : List JobStatus} {failed : Finset ℕ} {t : Text} {sel : Selector}

theorem judge_eq {pid : ℕ} (hp : targetParentId py t = .ok (some pid))
    (hc : classifyTarget py t = .ok (some sel)) :
    judge py sts failed t = .ok
      (if pid ∈ failed then .pending
        else if sts.filter (·.jobId = pid) = [] then .byKill
        else judgeRows (sts.filter (·.jobId = pid)) (Classes.add {} (some sel))) := by
  rw [judge, hp]
  dsimp only
  rw [classifyTargets_singleton hc]
  split_ifs <;> rfl

/-- A target without a parent id stays pending, and whatever has one is decided. -/
theorem isOk_judge (h : Readable py t) : (judge py sts failed t).isOk = true := by
  obtain ⟨hparent, hclass⟩ := h
  rw [judge]
  cases hp : targetParentId py t with
  | error e => simp [hp, Except.isOk, Except.toBool] at hparent
  | ok pid =>
    cases pid with
    | none => rfl
    | some pid =>
      cases hc : classifyTarget py t with
      | error e => simp [hc, Except.isOk, Except.toBool] at hclass
      | ok sel =>
        dsimp only
        rw [classifyTargets_singleton hc]
        split_ifs <;> rfl

theorem filter_jobId_eq_nil_iff {pid : ℕ} :
    sts.filter (·.jobId = pid) = [] ↔ ∀ st ∈ sts, st.jobId ≠ pid := by
  simp [List.filter_eq_nil_iff]

/-- The rows of the job matter, and of these the ones the target denotes. -/
theorem forall_mem_filter_matches {P : JobStatus → Prop} :
    (∀ st ∈ sts.filter (·.jobId = sel.jobId), Matches sel st → P st) ↔
      ∀ st ∈ sts, Matches sel st → P st := by
  simp only [List.mem_filter, decide_eq_true_eq, and_imp]
  exact forall₂_congr fun st _ => ⟨fun h hm => h hm.1 hm, fun h _ hm => h hm⟩

theorem exists_mem_filter_matches :
    (∃ st ∈ sts.filter (·.jobId = sel.jobId), Matches sel st) ↔ ∃ st ∈ sts, Matches sel st := by
  simp only [List.mem_filter, decide_eq_true_eq]
  exact ⟨fun ⟨st, h, hm⟩ => ⟨st, h.1, hm⟩, fun ⟨st, h, hm⟩ => ⟨st, ⟨h, hm.1⟩, hm⟩⟩

theorem exists_folded_iff :
    (sel.isPart = true ∧ ∃ st ∈ sts.filter (·.jobId = sel.jobId), st.arrayIndex = none) ↔
      FacesFolded sel sts := by
  simp only [List.mem_filter, decide_eq_true_eq, FacesFolded, and_assoc]

/-- When a target is gone. -/
theorem isGone_judge_iff (hp : targetParentId py t = .ok (some sel.jobId))
    (hc : classifyTarget py t = .ok (some sel)) :
    (judge py sts failed t).toOption.any Verdict.isGone = true ↔
      sel.jobId ∉ failed ∧ ((∀ st ∈ sts, st.jobId ≠ sel.jobId) ∨
        ¬ FacesFolded sel sts ∧ ∀ st ∈ sts, Matches sel st → st.state.isOnLsf = false) := by
  rw [judge_eq hp hc]
  simp only [Except.toOption, Option.any_some]
  split_ifs with hfailed hnone
  · simp [Verdict.isGone, hfailed]
  · rw [filter_jobId_eq_nil_iff] at hnone
    simp only [Verdict.isGone, true_iff]
    exact ⟨hfailed, .inl hnone⟩
  · rw [filter_jobId_eq_nil_iff] at hnone
    rw [isGone_judgeRows_iff, exists_folded_iff, forall_mem_filter_matches]
    simp only [hfailed, not_false_eq_true, true_and, hnone, false_or]

/-- When one that is gone was not ended by this kill. -/
theorem natural_judge_iff (hp : targetParentId py t = .ok (some sel.jobId))
    (hc : classifyTarget py t = .ok (some sel))
    (hgone : (judge py sts failed t).toOption.any Verdict.isGone = true) :
    ¬ (judge py sts failed t).toOption.any (· = .byKill) = true ↔
      (∃ st ∈ sts, Matches sel st) ∧ ∀ st ∈ sts, Matches sel st → st.state = .done := by
  rw [judge_eq hp hc] at hgone ⊢
  simp only [Except.toOption, Option.any_some, decide_eq_true_eq] at hgone ⊢
  split_ifs at hgone ⊢ with hfailed hnone
  · cases hgone
  · rw [filter_jobId_eq_nil_iff] at hnone
    simp only [not_true_eq_false, false_iff]
    exact fun ⟨⟨st, hst, hm⟩, _⟩ => hnone st hst hm.1
  · rw [← exists_mem_filter_matches, ← forall_mem_filter_matches (P := fun st => st.state = .done)]
    exact judgeRows_natural_iff sel _ hgone

/-! ## The set -/

theorem mem_judged {targets : Finset Text} {p : Verdict → Bool} :
    t ∈ judged py sts failed targets p ↔
      t ∈ targets ∧ (judge py sts failed t).toOption.any p = true := by
  rw [judged, Finset.mem_filter]

theorem mem_parentIds {targets : Finset Text} {pid : ℕ} (ht : t ∈ targets)
    (hp : targetParentId py t = .ok (some pid)) : pid ∈ parentIds py targets :=
  Finset.mem_biUnion.mpr ⟨t, ht, by simp [hp]⟩

/-- Without an answer nothing is gone. -/
theorem confirmByQuery_raised {answer : List ℕ → Option (List JobStatus × Finset ℕ)}
    {targets : Finset Text} (hread : ∀ t ∈ targets, Readable py t)
    (h : answer ((parentIds py targets).sort (· ≤ ·)) = none) :
    ∃ r, confirmByQuery py answer targets = .ok r ∧ r.gone = ∅ ∧ r.byKill = ∅ := by
  have hparents : ¬ ∃ t ∈ targets, (targetParentId py t).isOk = false := by
    rintro ⟨t, ht, hf⟩
    simp [(hread t ht).1] at hf
  rw [confirmByQuery, if_neg hparents]
  dsimp only
  split_ifs with hnil
  · exact ⟨_, rfl, rfl, rfl⟩
  · rw [h]
    exact ⟨_, rfl, rfl, rfl⟩

/-- With one, a target that has a parent id is in a set if its verdict is. -/
theorem confirmByQuery_answered (answer : List ℕ → Option (List JobStatus × Finset ℕ))
    {targets : Finset Text} (hread : ∀ t ∈ targets, Readable py t)
    (h : answer ((parentIds py targets).sort (· ≤ ·)) = some (sts, failed)) :
    ∃ r, confirmByQuery py answer targets = .ok r ∧
      r.byKill ⊆ r.gone ∧ r.gone ⊆ targets ∧
      ∀ t ∈ targets, ∀ pid, targetParentId py t = .ok (some pid) →
        (t ∈ r.gone ↔ (judge py sts failed t).toOption.any Verdict.isGone = true) ∧
        (t ∈ r.byKill ↔ (judge py sts failed t).toOption.any (· = .byKill) = true) := by
  have hparents : ¬ ∃ t ∈ targets, (targetParentId py t).isOk = false := by
    rintro ⟨t, ht, hf⟩
    simp [(hread t ht).1] at hf
  have hjudged : ¬ ∃ t ∈ targets, (judge py sts failed t).isOk = false := by
    rintro ⟨t, ht, hf⟩
    simp [isOk_judge (hread t ht)] at hf
  rw [confirmByQuery, if_neg hparents]
  dsimp only
  split_ifs with hnil
  · refine ⟨_, rfl, Finset.Subset.refl _, Finset.empty_subset _, fun t ht pid hp => ?_⟩
    -- no target has a parent id
    have hmem := (Finset.mem_sort (· ≤ ·)).mpr (mem_parentIds ht hp)
    simp [hnil] at hmem
  · rw [h]
    dsimp only
    rw [if_neg hjudged]
    refine ⟨_, rfl, fun t ht => ?_, Finset.filter_subset _ _, fun t ht pid _ => ?_⟩
    · obtain ⟨hmem, hkill⟩ := mem_judged.mp ht
      refine mem_judged.mpr ⟨hmem, ?_⟩
      cases hj : (judge py sts failed t).toOption with
      | none => simp [hj] at hkill
      | some v =>
        simp only [hj, Option.any_some, decide_eq_true_eq] at hkill
        rw [hkill]
        rfl
    · exact ⟨mem_judged.trans (and_iff_right ht), mem_judged.trans (and_iff_right ht)⟩

/-- **The verdict on the targets of a timed-out `bkill`.**  A target with a parent id denotes one
job, an element of it or a range of them, and is gone if and only if the query of its job did not
fail and either the job has no row, or the target does not face a folded row and no row that matches
it is on LSF.  One that is gone was not ended by this kill if and only if rows match it and all of
them are `DONE`.  If the query raises, nothing is gone. -/
theorem confirmByQuery_verdict (hpy : py.Lawful)
    (answer : List ℕ → Option (List JobStatus × Finset ℕ)) (targets : Finset Text)
    (hread : ∀ t ∈ targets, Readable py t) :
    ∃ r, confirmByQuery py answer targets = .ok r ∧ r.byKill ⊆ r.gone ∧ r.gone ⊆ targets ∧
      (answer ((parentIds py targets).sort (· ≤ ·)) = none → r.gone = ∅ ∧ r.byKill = ∅) ∧
      ∀ sts failed, answer ((parentIds py targets).sort (· ≤ ·)) = some (sts, failed) →
        ∀ t ∈ targets, ∀ pid, targetParentId py t = .ok (some pid) →
          ∃ sel, classifyTarget py t = .ok (some sel) ∧ sel.jobId = pid ∧
            (t ∈ r.gone ↔ pid ∉ failed ∧ ((∀ st ∈ sts, st.jobId ≠ pid) ∨
              ¬ FacesFolded sel sts ∧ ∀ st ∈ sts, Matches sel st → st.state.isOnLsf = false)) ∧
            (t ∈ r.gone → (t ∉ r.byKill ↔
              (∃ st ∈ sts, Matches sel st) ∧ ∀ st ∈ sts, Matches sel st → st.state = .done)) := by
  cases ha : answer ((parentIds py targets).sort (· ≤ ·)) with
  | none =>
    obtain ⟨r, hr, hgone, hkill⟩ := confirmByQuery_raised hread ha
    refine ⟨r, hr, by simp [hkill], by simp [hgone], fun _ => ⟨hgone, hkill⟩, ?_⟩
    intro sts failed h
    cases h
  | some a =>
    obtain ⟨sts, failed⟩ := a
    obtain ⟨r, hr, hsub, htargets, hmem⟩ := confirmByQuery_answered answer hread ha
    refine ⟨r, hr, hsub, htargets, fun h => (by cases h), ?_⟩
    intro sts' failed' h t ht pid hp
    cases h
    cases hc : classifyTarget py t with
    | error e =>
      have hok := (hread t ht).2
      simp [hc, Except.isOk, Except.toBool] at hok
    | ok sel =>
      obtain ⟨sel, rfl, rfl⟩ := jobId_of_parent hpy hp hc
      obtain ⟨hgone, hkill⟩ := hmem t ht _ hp
      refine ⟨sel, rfl, rfl, hgone.trans (isGone_judge_iff hp hc), fun hg => ?_⟩
      rw [hkill]
      exact natural_judge_iff hp hc (hgone.mp hg)

/-- An element that `bjobs` shows as `EXIT`, next to one that runs. -/
theorem confirmByQuery_verdict_exited :
    let answer : List ℕ → Option (List JobStatus × Finset ℕ) := fun _ =>
      some ([⟨12, some 3, .exit, some 130, none, none, none, none, none⟩,
        ⟨12, some 4, .run, none, none, none, none, none, none⟩], ∅)
    ∃ r, confirmByQuery Python.ascii answer {"12[3]".toList} = .ok r ∧ "12[3]".toList ∈ r.gone := by
  intro answer
  obtain ⟨r, hr, -, -, -, hall⟩ := confirmByQuery_verdict Python.ascii_lawful answer
    {"12[3]".toList} (by decide)
  obtain ⟨sel, hsel, -, hgone, -⟩ := hall _ _ rfl "12[3]".toList (by decide) 12 (by decide)
  obtain rfl : Selector.exact 12 3 = sel := by
    have : classifyTarget Python.ascii "12[3]".toList = .ok (some (.exact 12 3)) := by decide
    exact Option.some.inj (Except.ok.inj (this.symm.trans hsel))
  refine ⟨r, hr, hgone.mpr ⟨by decide, .inr ⟨?_, ?_⟩⟩⟩
  · simp [FacesFolded]
  · simp [Matches, Selector.selects, JobState.isOnLsf]

/-- Next to a folded row, an element is left pending although its own row is `DONE`; and a digit
that `int` does not take raises. -/
theorem not_confirmByQuery_verdict :
    (¬ ∀ (sts : List JobStatus) (failed : Finset ℕ) (targets : Finset Text),
      ∃ r, confirmByQuery Python.ascii (fun _ => some (sts, failed)) targets = .ok r ∧
        ∀ t ∈ targets, ∀ sel, classifyTarget Python.ascii t = .ok (some sel) →
          (t ∈ r.gone ∧ t ∉ r.byKill ↔
            (∃ st ∈ sts, Matches sel st) ∧ ∀ st ∈ sts, Matches sel st → st.state = .done)) ∧
    confirmByQuery { Python.ascii with isDigit := fun c => c.isDigit || c = '²' }
      (fun _ => some ([], ∅)) {"²".toList} = .error .valueError := by
  refine ⟨fun h => ?_, if_pos ⟨_, Finset.mem_singleton_self _, by decide⟩⟩
  set sts : List JobStatus := [⟨12, none, .run, none, none, none, none, none, none⟩,
    ⟨12, some 3, .done, none, none, none, none, none, none⟩] with hsts
  set target : Text := "12[3]".toList with htarget
  obtain ⟨r, hr, hall⟩ := h sts ∅ {target}
  have hread : ∀ t ∈ ({target} : Finset Text), Readable Python.ascii t := by decide
  obtain ⟨r', hr', -, -, hmem⟩ := confirmByQuery_answered (fun _ => some (sts, ∅)) hread rfl
  obtain rfl : r' = r := Except.ok.inj (hr'.symm.trans hr)
  have hgone : target ∉ r'.gone := by
    rw [(hmem target (by decide) 12 (by decide)).1]
    decide
  refine hgone ((hall target (by decide) (.exact 12 3) (by decide)).mpr ⟨?_, ?_⟩).1
  · exact ⟨_, List.mem_cons_of_mem _ List.mem_cons_self, rfl, rfl⟩
  · simp [hsts, Matches, Selector.selects]

end Lsfmgr.Kill
