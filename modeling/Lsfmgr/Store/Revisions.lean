import Mathlib
import Lsfmgr.Store.Atomic

/-!
# Store/Revisions — every write to a record raises its revision by one

The funnel `replaceRec` numbers a write after the record it finds in the store, not after the one it
was given, so a stale snapshot cannot bring an old revision back.  `Rewrites s news s'` is a chain
of such writes; a batch of transitions is one, wherever it stops, and what it returns are the
records written.
-/

namespace Lsfmgr

open Machinery

namespace InMemoryStore

/-- `news` were written one after the other, each over the record at its key and with the next
revision. -/
inductive Rewrites : InMemoryStore → List JobRecord → InMemoryStore → Prop
  | nil (s : InMemoryStore) : Rewrites s [] s
  | cons {s s₁ s' : InMemoryStore} {old new : JobRecord} {news : List JobRecord} :
      s.job? new.jobsetId new.jobKey = some old → new.revision = old.revision + 1 →
      Wrote s new.jobsetId new.jobKey (some new) s₁ → Rewrites s₁ news s' →
      Rewrites s (new :: news) s'

section Revisions

variable {s s' : InMemoryStore} {js k : String} {now : Time}

theorem rewrite_ids (now : Time) {fields : List Field} (hf : ∀ f ∈ fields, f.Plain)
    (r : JobRecord) (st : JobState) (n : ℕ) :
    (r.rewrite now st n fields).jobsetId = r.jobsetId ∧
    (r.rewrite now st n fields).jobKey = r.jobKey :=
  foldl_put_ids hf r

theorem batchWrite_ids (now : Time) (hp : s.Placed) {spec : TransitionSpec} {old : JobRecord}
    (hk : spec.fields.findSome? Field.keyName? = none) (hw : specWrites spec old = true)
    (hj : s.job? js spec.jobKey = some old) :
    (batchWrite now spec old).jobsetId = js ∧ (batchWrite now spec old).jobKey = spec.jobKey ∧
      (batchWrite now spec old).revision = old.revision + 1 := by
  obtain ⟨hjs, hkey⟩ := hp.own _ _ _ hj
  rw [specWrites] at hw
  split at hw
  case h_1 hg =>
    have heq : batchWrite now spec old
        = old.rewrite now (spec.newState.getD old.state) old.revision spec.fields := by
      rw [batchWrite, hg]
    rw [heq]
    obtain ⟨h₁, h₂⟩ := rewrite_ids now (plain_of_names (by simpa using hw) hk) old
      (spec.newState.getD old.state) old.revision
    exact ⟨h₁.trans hjs, h₂.trans hkey, rfl⟩
  case h_2 => cases hw

/-- **A batch is a chain of writes**, and it returns what it wrote. -/
theorem rewrites_transitionManyImpl {specs : List TransitionSpec} (hp : s.Placed)
    (hk : NoKeyField specs) :
    ∃ news, Rewrites s news (s.transitionManyImpl now js specs).2 ∧
      ∀ out, (s.transitionManyImpl now js specs).1 = .ok out → out = news := by
  induction specs generalizing s with
  | nil => exact ⟨[], .nil s, fun out h => (Except.ok.inj h).symm⟩
  | cons spec specs ih =>
    obtain ⟨hk₁, hk⟩ := List.forall_mem_cons.mp hk
    cases batchStep hp now specs hk₁ with
    | gone hj heq => rw [heq]; exact ih hp hk
    | refused hj hr hw heq => rw [heq]; exact ih hp hk
    | raised hj hr heq => rw [heq]; exact ⟨[], .nil s, fun out h => by cases h⟩
    | written hj hr hw hwrote heq =>
      obtain ⟨news, hchain, hout⟩ := ih (hwrote.placed hp) hk
      obtain ⟨hjs, hkey, hrev⟩ := batchWrite_ids now hp hk₁ hw hj
      rw [heq]
      refine ⟨_ :: news, .cons (by rw [hjs, hkey]; exact hj) hrev (by rw [hjs, hkey]; exact hwrote)
        hchain, fun out h => ?_⟩
      obtain ⟨rest, hrest, rfl⟩ := except_map_eq_ok.mp h
      rw [hout rest hrest]

/-- A single transition is a batch of one, but it raises when the record is gone. -/
theorem transition_ok {ns : Option JobState} {guard : Option Guard} {fields : List Field}
    {out : Option JobRecord} (hp : s.Placed)
    (h : s.transition now js k ns guard fields = .ok (out, s')) :
    (out = none ∧ s' = s) ∨ ∃ old new, out = some new ∧ s.job? js k = some old ∧
      new = old.rewrite now (ns.getD old.state) old.revision fields ∧
      (∀ f ∈ fields, f.Plain) ∧ Wrote s js k (some new) s' := by
  simp only [transition, rejectKeyFields, getJob, bind, Except.bind] at h
  split at h
  case h_1 => cases h
  case h_2 heq =>
    have hk : fields.findSome? Field.keyName? = none := by
      rcases hf : fields.findSome? Field.keyName? with _ | n
      · rfl
      · rw [hf] at heq; cases heq
    rcases hj : s.job? js k with _ | old
    · rw [hj] at h; cases h
    · simp only [hj] at h
      split at h
      case h_1 => cases h
      case h_2 =>
        split at h
        case isTrue =>
          rcases hb : fields.findSome? Field.badName? with _ | n
          · obtain ⟨s₁, hs₁, hw⟩ := replaceRec_wrote now hp hj (plain_of_names hb hk)
              (some (ns.getD old.state))
            rw [Option.getD_some] at hs₁ hw
            rw [hs₁] at h
            obtain ⟨rfl, rfl⟩ := Prod.mk.inj (Except.ok.inj h)
            exact .inr ⟨old, _, rfl, rfl, rfl, plain_of_names hb hk, hw⟩
          · obtain ⟨hjs, hkey⟩ := hp.own _ _ _ hj
            simp only [replaceRec, hjs, hkey, hj, hb] at h
            cases h
        case isFalse =>
          obtain ⟨rfl, rfl⟩ := Prod.mk.inj (Except.ok.inj h)
          exact .inl ⟨rfl, rfl⟩

/-- A bulk insertion that succeeds found every key free. -/
theorem checkNewJobs_free {seen : List (String × String)} {records : List JobRecord}
    (h : s.checkNewJobs seen records = .ok ()) :
    ∀ r ∈ records, s.job? r.jobsetId r.jobKey = none := by
  induction records generalizing seen with
  | nil => simp
  | cons r records ih =>
    rw [checkNewJobs] at h
    split at h
    case isFalse => cases h
    case isTrue =>
      split at h
      case h_1 => cases h
      case h_2 jobs hj =>
        split at h
        case isTrue => cases h
        case isFalse hfree =>
          refine List.forall_mem_cons.mpr ⟨?_, ih h⟩
          simpa [job?, hj] using Dict.get?_eq_none.mpr fun hm => hfree (.inr hm)

/-- **What revisions do**: a write to an existing record raises its revision by one, whatever
snapshot the caller holds; a write that its guard refuses changes nothing; an insertion goes to free
keys only. -/
structure RaisesByOne (s : InMemoryStore) : Prop where
  updated : ∀ now r new s', s.updateJob now r = .ok (new, s') → Rewrites s [new] s'
  transitioned : ∀ now js k ns guard fields new s',
    s.transition now js k ns guard fields = .ok (some new, s') → Rewrites s [new] s'
  refused : ∀ now js k ns guard fields s',
    s.transition now js k ns guard fields = .ok (none, s') → s' = s
  batch : ∀ now js specs, ∃ news, Rewrites s news (s.transitionMany now js specs).2 ∧
    ∀ out, (s.transitionMany now js specs).1 = .ok out → out = news
  added : ∀ now r new s', s.storeAddJob now r = .ok (new, s') → s.job? r.jobsetId r.jobKey = none
  addedAll : ∀ now records out s', s.storeAddJobs now records = (.ok out, s') →
    ∀ r ∈ records, s.job? r.jobsetId r.jobKey = none

theorem Placed.raisesByOne (hp : s.Placed) : RaisesByOne s where
  updated now r new s' h := by
    obtain ⟨old, hold, rfl, hw⟩ := updateJob_ok h
    exact .cons hold rfl hw (.nil s')
  transitioned now js k ns guard fields new s' h := by
    obtain ⟨hnone, -⟩ | ⟨old, new', hnew, hold, hdef, hf, hw⟩ := transition_ok hp h
    · cases hnone
    · obtain rfl := Option.some.inj hnew
      obtain ⟨hjs, hkey⟩ := hp.own _ _ _ hold
      obtain ⟨h₁, h₂⟩ := rewrite_ids now hf old (ns.getD old.state) old.revision
      rw [← hdef, hjs] at h₁
      rw [← hdef, hkey] at h₂
      exact .cons (by rw [h₁, h₂]; exact hold) (by rw [hdef]; rfl)
        (by rw [h₁, h₂]; exact hw) (.nil s')
  refused now js k ns guard fields s' h := by
    obtain ⟨-, heq⟩ | ⟨old, new, hnew, -⟩ := transition_ok hp h
    · exact heq
    · cases hnew
  batch now js specs := by
    rw [transitionMany]
    split
    case h_1 => exact ⟨[], .nil s, fun out h => by cases h⟩
    case h_2 heq => exact rewrites_transitionManyImpl hp (List.findSome?_eq_none_iff.mp heq)
  added now r new s' h := (storeAddJob_ok h).2.1
  addedAll now records out s' h := by
    rw [storeAddJobs] at h
    split at h
    case h_1 => cases h
    case h_2 heq => exact checkNewJobs_free heq

end Revisions

end InMemoryStore

end Lsfmgr
