import Mathlib
import Lsfmgr.Store.Counts

/-!
# Store/Atomic — when a raising write leaves the store as it was

Every operation of the store but one raises before its first write.  `transition_many` looks for key
fields beforehand, but meets an unknown field name, and a guard that raises, only when it comes to
the item; the items before it have been written by then.  `raise_unchanged_iff` says exactly when
that happens.
-/

namespace Lsfmgr

open Machinery

namespace InMemoryStore

/-- An item met at the record `old` raises: its guard does, or it lets the write through and a field
name is not one that can be written. -/
def specRaises (spec : TransitionSpec) (old : JobRecord) : Bool :=
  match checkGuard spec.guard old with
  | .error _ => true
  | .ok false => false
  | .ok true => (spec.fields.findSome? Field.badName?).isSome

/-- An item met at the record `old` writes. -/
def specWrites (spec : TransitionSpec) (old : JobRecord) : Bool :=
  match checkGuard spec.guard old with
  | .ok true => (spec.fields.findSome? Field.badName?).isNone
  | _ => false

/-- The records of a jobset by key. -/
abbrev Records := String → Option JobRecord

/-- The records after an item was written at the record `old`. -/
def Records.write (recs : Records) (now : Time) (spec : TransitionSpec) (old : JobRecord) :
    Records :=
  Function.update recs spec.jobKey (some (batchWrite now spec old))

/-- Some item raises when the items are met in order, from these records on. -/
def someRaises (now : Time) : Records → List TransitionSpec → Bool
  | _, [] => false
  | recs, spec :: specs =>
    match recs spec.jobKey with
    | none => someRaises now recs specs
    | some old =>
      if specRaises spec old then true
      else if specWrites spec old then someRaises now (recs.write now spec old) specs
      else someRaises now recs specs

/-- **Some item raises after an earlier one was written.** -/
def raisesAfterWrite (now : Time) (recs : Records) : List TransitionSpec → Bool
  | [] => false
  | spec :: specs =>
    match recs spec.jobKey with
    | none => raisesAfterWrite now recs specs
    | some old =>
      if specRaises spec old then false
      else if specWrites spec old then someRaises now (recs.write now spec old) specs
      else raisesAfterWrite now recs specs

/-- The items of a batch carry no key field: `transition_many` has looked. -/
def NoKeyField (specs : List TransitionSpec) : Prop :=
  ∀ spec ∈ specs, spec.fields.findSome? Field.keyName? = none

instance (specs : List TransitionSpec) : Decidable (NoKeyField specs) :=
  inferInstanceAs (Decidable (∀ spec ∈ specs, _ = none))

section Batch

variable {s : InMemoryStore} {js : String} {now : Time}

/-- **What a batch does with its first item.** -/
inductive BatchStep (s : InMemoryStore) (js : String) (now : Time) (spec : TransitionSpec)
    (specs : List TransitionSpec) : Prop
  | gone : s.job? js spec.jobKey = none →
      s.transitionManyImpl now js (spec :: specs) = s.transitionManyImpl now js specs →
      BatchStep s js now spec specs
  | refused {old : JobRecord} : s.job? js spec.jobKey = some old → specRaises spec old = false →
      specWrites spec old = false →
      s.transitionManyImpl now js (spec :: specs) = s.transitionManyImpl now js specs →
      BatchStep s js now spec specs
  | raised {old : JobRecord} {e : StoreError} : s.job? js spec.jobKey = some old →
      specRaises spec old = true → s.transitionManyImpl now js (spec :: specs) = (.error e, s) →
      BatchStep s js now spec specs
  | written {old : JobRecord} {s₁ : InMemoryStore} : s.job? js spec.jobKey = some old →
      specRaises spec old = false → specWrites spec old = true →
      s.Wrote js spec.jobKey (some (batchWrite now spec old)) s₁ →
      s.transitionManyImpl now js (spec :: specs)
        = ((s₁.transitionManyImpl now js specs).1.map (batchWrite now spec old :: ·),
          (s₁.transitionManyImpl now js specs).2) →
      BatchStep s js now spec specs

theorem plain_of_names {fields : List Field} (hb : fields.findSome? Field.badName? = none)
    (hk : fields.findSome? Field.keyName? = none) : ∀ f ∈ fields, f.Plain := fun f hf =>
  ⟨List.findSome?_eq_none_iff.mp hb f hf, List.findSome?_eq_none_iff.mp hk f hf⟩

theorem batchStep (hp : s.Placed) (now : Time) {spec : TransitionSpec}
    (specs : List TransitionSpec) (hk : spec.fields.findSome? Field.keyName? = none) :
    BatchStep s js now spec specs := by
  rcases hj : s.job? js spec.jobKey with _ | old
  · exact .gone hj (by rw [transitionManyImpl, hj])
  · obtain ⟨hjs, hkey⟩ := hp.own _ _ _ hj
    rcases hg : checkGuard spec.guard old with e | _ | _
    · exact .raised hj (e := e) (by rw [specRaises, hg])
        (by rw [transitionManyImpl, hj]; simp only [hg])
    · exact .refused hj (by rw [specRaises, hg]) (by rw [specWrites, hg])
        (by rw [transitionManyImpl, hj]; simp only [hg])
    · rcases hb : spec.fields.findSome? Field.badName? with _ | n
      · obtain ⟨s₁, hs₁, hw⟩ := replaceRec_wrote now hp hj (plain_of_names hb hk)
          (some (spec.newState.getD old.state))
        rw [Option.getD_some] at hs₁ hw
        have hnew : batchWrite now spec old
            = old.rewrite now (spec.newState.getD old.state) old.revision spec.fields := by
          simp [batchWrite, hg]
        rw [← hnew] at hs₁ hw
        exact .written hj (by simp [specRaises, hg, hb]) (by simp [specWrites, hg, hb]) hw
          (by rw [transitionManyImpl, hj]; simp only [hg, hs₁])
      · refine .raised hj (e := .badField n) (by simp [specRaises, hg, hb]) ?_
        rw [transitionManyImpl, hj]
        simp only [hg, replaceRec, hjs, hkey, hj, hb]

theorem job?_eq_write {spec : TransitionSpec} {old : JobRecord} {s₁ : InMemoryStore}
    (hw : s.Wrote js spec.jobKey (some (batchWrite now spec old)) s₁) :
    s₁.job? js = Records.write (s.job? js) now spec old := by
  funext k
  rw [hw.job?, Records.write, Function.update_apply]
  simp

/-- **A batch raises when some item does.** -/
theorem transitionManyImpl_raises (js : String) (now : Time) {specs : List TransitionSpec}
    (hp : s.Placed)
    (hk : NoKeyField specs) :
    (∃ e, (s.transitionManyImpl now js specs).1 = .error e) ↔
      someRaises now (s.job? js) specs = true := by
  induction specs generalizing s with
  | nil => simp [transitionManyImpl, someRaises]
  | cons spec specs ih =>
    obtain ⟨hk₁, hk⟩ := List.forall_mem_cons.mp hk
    rw [someRaises]
    cases batchStep hp now specs hk₁ with
    | gone hj heq => rw [heq, hj]; exact ih hp hk
    | refused hj hr hw heq => rw [heq, hj]; simpa [hr, hw] using ih hp hk
    | raised hj hr heq => rw [heq, hj]; simp [hr]
    | written hj hr hw hwrote heq =>
      rw [heq, hj]
      simp only [hr, hw, if_true, Bool.false_eq_true, if_false, ← job?_eq_write hwrote,
        ← ih (hwrote.placed hp) hk]
      rcases (InMemoryStore.transitionManyImpl _ now js specs).1 with e | out <;>
        simp [Except.map]

/-- What a batch writes only raises the revision. -/
theorem revision_le_batchWrite (spec : TransitionSpec) (old : JobRecord) :
    old.revision ≤ (batchWrite now spec old).revision ∧
      (specWrites spec old = true → old.revision < (batchWrite now spec old).revision) := by
  rw [batchWrite, specWrites]
  rcases checkGuard spec.guard old with e | _ | _
  · exact ⟨le_rfl, fun h => by cases h⟩
  · exact ⟨le_rfl, fun h => by cases h⟩
  · exact ⟨Nat.le_succ _, fun _ => Nat.lt_succ_self _⟩

/-- In a batch no record disappears, and no revision falls. -/
theorem transitionManyImpl_grows (now : Time) {specs : List TransitionSpec} (hp : s.Placed)
    (hk : NoKeyField specs) {k : String} {r : JobRecord} (hr : s.job? js k = some r) :
    ∃ r', (s.transitionManyImpl now js specs).2.job? js k = some r' ∧
      r.revision ≤ r'.revision := by
  induction specs generalizing s r with
  | nil => exact ⟨r, hr, le_rfl⟩
  | cons spec specs ih =>
    obtain ⟨hk₁, hk⟩ := List.forall_mem_cons.mp hk
    cases batchStep hp now specs hk₁ with
    | gone _ heq => rw [heq]; exact ih hp hk hr
    | refused _ _ _ heq => rw [heq]; exact ih hp hk hr
    | raised _ _ heq => rw [heq]; exact ⟨r, hr, le_rfl⟩
    | @written old s₁ hj _ _ hwrote heq =>
      rw [heq]
      have hread := hwrote.job? js k
      by_cases hkk : k = spec.jobKey
      · subst hkk
        obtain rfl := Option.some.inj (hj.symm.trans hr)
        rw [if_pos ⟨rfl, rfl⟩] at hread
        obtain ⟨r', hr', hle⟩ := ih (hwrote.placed hp) hk hread
        exact ⟨r', hr', (revision_le_batchWrite spec old).1.trans hle⟩
      · rw [if_neg fun h => hkk h.2, hr] at hread
        exact ih (hwrote.placed hp) hk hread

/-- **A raising batch leaves the store as it was, unless an item raises after one was written.** -/
theorem transitionManyImpl_unchanged {specs : List TransitionSpec} (hp : s.Placed)
    (hk : NoKeyField specs) :
    ((∃ e, (s.transitionManyImpl now js specs).1 = .error e) →
        (s.transitionManyImpl now js specs).2 = s) ↔
      raisesAfterWrite now (s.job? js) specs = false := by
  induction specs generalizing s with
  | nil => simp [transitionManyImpl, raisesAfterWrite]
  | cons spec specs ih =>
    obtain ⟨hk₁, hk⟩ := List.forall_mem_cons.mp hk
    rw [raisesAfterWrite]
    cases batchStep hp now specs hk₁ with
    | gone hj heq => rw [heq, hj]; exact ih hp hk
    | refused hj hr hw heq => rw [heq, hj]; simpa [hr, hw] using ih hp hk
    | raised hj hr heq => rw [heq, hj]; simp [hr]
    | @written old s₁ hj hr hw hwrote heq =>
      have hraise := transitionManyImpl_raises js now (hwrote.placed hp) hk
      rw [job?_eq_write hwrote] at hraise
      rw [heq, hj]
      simp only [hr, hw, if_true, Bool.false_eq_true, if_false]
      rw [← Bool.not_eq_true, ← hraise]
      constructor
      · rintro hsame ⟨e, he⟩
        have hs : (s₁.transitionManyImpl now js specs).2 = s :=
          hsame ⟨e, by rw [he]; rfl⟩
        have hread := hwrote.job? js spec.jobKey
        rw [if_pos ⟨rfl, rfl⟩] at hread
        obtain ⟨r', hr', hle⟩ := transitionManyImpl_grows now (hwrote.placed hp) hk hread
        rw [hs, hj] at hr'
        obtain rfl := Option.some.inj hr'
        exact absurd ((revision_le_batchWrite spec old).2 hw) (not_lt.mpr hle)
      · rintro hno ⟨e, he⟩
        refine absurd ?_ hno
        rcases hrest : (s₁.transitionManyImpl now js specs).1 with e' | out
        · exact ⟨e', rfl⟩
        · rw [hrest] at he
          cases he

end Batch

/-! ## The other operations -/

section Others

variable {s : InMemoryStore}

/-- The checks of `store_add_jobs` leave nothing for its writes to raise. -/
theorem checkNewJobs_ok {seen : List (String × String)} {records : List JobRecord}
    (h : s.checkNewJobs seen records = .ok ()) :
    ∀ r ∈ records, r.jobsetId ∈ s.jobs.keys := by
  induction records generalizing seen with
  | nil => simp
  | cons r records ih =>
    rw [checkNewJobs] at h
    split at h
    case isFalse => cases h
    case isTrue =>
      split at h
      case h_1 => cases h
      case h_2 jobs hj =>
        split at h
        case isTrue => cases h
        case isFalse =>
          exact List.forall_mem_cons.mpr ⟨Dict.mem_keys.mpr ⟨jobs, hj⟩, ih h⟩

theorem putAll_ok (hp : s.Placed) (now : Time) {records : List JobRecord}
    (h : ∀ r ∈ records, r.jobsetId ∈ s.jobs.keys) : ∃ out, (s.putAll now records).1 = .ok out := by
  induction records generalizing s with
  | nil => exact ⟨[], rfl⟩
  | cons r records ih =>
    obtain ⟨hr, hrest⟩ := List.forall_mem_cons.mp h
    obtain ⟨s₁, hs₁, hw⟩ := putRec_wrote (s := s)
      (r := { r with updatedAt := some (r.updatedAt.getD now) }) hr
    have hp₁ := hw.placed hp
    obtain ⟨out, hout⟩ := ih hp₁ fun r' hr' => by
      rw [hp₁.jobs_iff, hw.jobsets, ← hp.jobs_iff]
      exact hrest r' hr'
    exact ⟨_, by simp only [putAll, hs₁, hout]; rfl⟩

theorem single_unchanged {α : Type} {out : Except StoreError (α × InMemoryStore)} {e : StoreError}
    (h : (s.single out).1 = some e) : (s.single out).2 = s := by
  rcases out with e' | ⟨a, s'⟩
  · rfl
  · cases h

theorem batch_raises {α : Type} {out : Except StoreError α × InMemoryStore} {e : StoreError} :
    (batch out).1 = some e ↔ out.1 = .error e := by
  rcases out with ⟨_ | _, _⟩ <;> simp [batch]

/-- **A bulk insertion raises before it writes.** -/
theorem storeAddJobs_unchanged (hp : s.Placed) {now : Time} {records : List JobRecord}
    {e : StoreError} (h : (s.storeAddJobs now records).1 = .error e) :
    (s.storeAddJobs now records).2 = s := by
  rw [storeAddJobs] at h ⊢
  split at h
  case h_1 => rfl
  case h_2 heq =>
    obtain ⟨out, hout⟩ := putAll_ok hp now (checkNewJobs_ok heq)
    rw [hout] at h
    cases h

end Others

/-- The operation is a batch in which some item raises after an earlier one was written. -/
def FailsHalfWay (s : InMemoryStore) (op : Op) : Prop :=
  ∃ now js specs, op = .transitionMany now js specs ∧ NoKeyField specs ∧
    raisesAfterWrite now (s.job? js) specs = true

/-- **A raising operation leaves the store exactly as it was, unless it is a batch of transitions
that fails half way**; then it does not. -/
theorem raise_unchanged_iff (ops : List Op) (op : Op) :
    ((∃ e, ((afterOps ops).perform op).1 = some e) →
        ((afterOps ops).perform op).2 = afterOps ops) ↔ ¬FailsHalfWay (afterOps ops) op := by
  have hp := (represented_afterOps ops).placed
  generalize afterOps ops = s at hp
  have hother : (∀ now js specs, op ≠ .transitionMany now js specs) → ¬FailsHalfWay s op := by
    rintro hne ⟨now, js, specs, heq, -⟩
    exact hne now js specs heq
  cases op with
  | transitionMany now js specs =>
    rw [perform, batch_snd]
    simp only [batch_raises]
    by_cases hk : NoKeyField specs
    · have hnone : (specs.findSome? fun spec => spec.fields.findSome? Field.keyName?) = none :=
        List.findSome?_eq_none_iff.mpr hk
      rw [transitionMany, hnone]
      simp only
      rw [transitionManyImpl_unchanged hp hk, ← Bool.not_eq_true]
      refine not_congr ⟨fun h => ⟨now, js, specs, rfl, hk, h⟩, ?_⟩
      rintro ⟨now', js', specs', heq, -, h⟩
      cases heq
      exact h
    · refine iff_of_true (fun _ => ?_) ?_
      · rw [transitionMany]
        split
        case h_1 => rfl
        case h_2 hnone => exact absurd (List.findSome?_eq_none_iff.mp hnone) hk
      · rintro ⟨now', js', specs', heq, hk', -⟩
        cases heq
        exact hk hk'
  | addJobs now records =>
    refine iff_of_true ?_ (hother (by simp))
    rintro ⟨e, he⟩
    rw [perform, batch_snd]
    exact storeAddJobs_unchanged hp (batch_raises.mp he)
  | deleteJobset | deleteJobs =>
    refine iff_of_true ?_ (hother (by simp))
    rintro ⟨e, he⟩
    cases he
  | insertJobset | updateJobset | addJob | deleteJob | updateJob | transition =>
    refine iff_of_true ?_ (hother (by simp))
    rintro ⟨e, he⟩
    exact single_unchanged he

/-! ## A batch that fails half way -/

/-- A jobset with one job. -/
def oneRecord : List Op :=
  [.insertJobset 0 { jobsetId := "js", intendedCount := 1 },
    .addJob 0 { jobsetId := "js", jobKey := "a", generation := 0 }]

/-- Its job is written, then an item of the same key names a field that does not exist. -/
def badSecondItem : Op :=
  .transitionMany 1 "js" [{ jobKey := "a", newState := some .submitting },
    { jobKey := "a", newState := none, fields := [.unknown "no_such_field"] }]

/-- **A raising batch may leave its first writes behind.** -/
theorem raise_unchanged_fails :
    ((afterOps oneRecord).perform badSecondItem).1 = some (.badField "no_such_field") ∧
      ((afterOps oneRecord).perform badSecondItem).2 ≠ afterOps oneRecord := by
  decide +kernel

end InMemoryStore

end Lsfmgr
