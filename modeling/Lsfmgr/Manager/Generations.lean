import Mathlib
import Lsfmgr.Manager.Ordering

/-!
# Manager/Generations — a write stays in the execution it finds, or starts a new one

Whatever a write does, a record it leaves in the store belongs to the execution that was at its key
before, or to one that the write brings in: `keepsGenerations_perform`.  Nothing moves a record to
another key, and no old execution comes back.
-/

namespace Lsfmgr

open Machinery

namespace InMemoryStore

open Delivery (fieldGenerations generations removes)

/-- Every record of the new store is of the execution that was at its key, or of one of `gens`. -/
def KeepsGenerations (gens : List ℕ) (s s' : InMemoryStore) : Prop :=
  ∀ js k r', s'.job? js k = some r' →
    (∃ r, s.job? js k = some r ∧ r.generation = r'.generation) ∨ r'.generation ∈ gens

section Keeps

variable {s s₁ s₂ : InMemoryStore} {gens gens' : List ℕ} {js k : String} {now : Time}

theorem KeepsGenerations.of_job? (h : ∀ js k, s₁.job? js k = s.job? js k) :
    KeepsGenerations gens s s₁ := fun js k r' hr => .inl ⟨r', h js k ▸ hr, rfl⟩

theorem KeepsGenerations.refl (gens : List ℕ) (s : InMemoryStore) : KeepsGenerations gens s s :=
  .of_job? fun _ _ => rfl

theorem KeepsGenerations.mono (h : KeepsGenerations gens s s₁) (hsub : ∀ g ∈ gens, g ∈ gens') :
    KeepsGenerations gens' s s₁ := fun js k r' hr => (h js k r' hr).imp_right (hsub _)

theorem KeepsGenerations.trans (h : KeepsGenerations gens s s₁)
    (h' : KeepsGenerations gens s₁ s₂) : KeepsGenerations gens s s₂ := by
  intro js k r' hr
  obtain ⟨r₁, hr₁, hg₁⟩ | hin := h' js k r' hr
  · rw [← hg₁]
    exact h js k r₁ hr₁
  · exact .inr hin

/-- A single write. -/
theorem Wrote.keepsGenerations {new : JobRecord} (hw : Wrote s js k (some new) s₁)
    (hg : (∃ old, s.job? js k = some old ∧ old.generation = new.generation) ∨
      new.generation ∈ gens) : KeepsGenerations gens s s₁ := by
  intro js' k' r' hr
  rw [hw.job?] at hr
  split at hr
  case isTrue hc =>
    obtain ⟨rfl, rfl⟩ := hc
    exact Option.some.inj hr ▸ hg
  case isFalse => exact .inl ⟨r', hr, rfl⟩

theorem keepsGenerations_storeAddJob {r out : JobRecord} (h : s.storeAddJob now r = .ok (out, s₁)) :
    KeepsGenerations [r.generation] s s₁ := by
  obtain ⟨rfl, -, hw⟩ := storeAddJob_ok h
  exact hw.keepsGenerations (.inr List.mem_cons_self)

theorem keepsGenerations_updateJob {r out : JobRecord} (h : s.updateJob now r = .ok (out, s₁)) :
    KeepsGenerations [r.generation] s s₁ := by
  obtain ⟨old, -, rfl, hw⟩ := updateJob_ok h
  exact hw.keepsGenerations (.inr List.mem_cons_self)

theorem keepsGenerations_transition {ns : Option JobState} {guard : Option Guard}
    {fields : List Field} {out : Option JobRecord} (hp : s.Placed)
    (h : s.transition now js k ns guard fields = .ok (out, s₁)) :
    KeepsGenerations (fieldGenerations fields) s s₁ := by
  obtain ⟨-, rfl⟩ | ⟨old, new, -, hold, rfl, -, hw⟩ := transition_ok hp h
  · exact .refl _ _
  · exact hw.keepsGenerations
      ((Delivery.foldl_put_generation fields old).imp (fun h => ⟨old, hold, h.symm⟩) id)

theorem keepsGenerations_transitionManyImpl {specs : List TransitionSpec} (hp : s.Placed)
    (hk : NoKeyField specs) :
    KeepsGenerations (specs.flatMap fun spec => fieldGenerations spec.fields) s
      (s.transitionManyImpl now js specs).2 := by
  induction specs generalizing s with
  | nil => exact .refl _ s
  | cons spec specs ih =>
    obtain ⟨hk₁, hk⟩ := List.forall_mem_cons.mp hk
    have later : ∀ {t t' : InMemoryStore},
        KeepsGenerations (specs.flatMap fun spec => fieldGenerations spec.fields) t t' →
        KeepsGenerations ((spec :: specs).flatMap fun spec => fieldGenerations spec.fields) t t' :=
      fun h => h.mono fun g hg => by
        rw [List.flatMap_cons]
        exact List.mem_append_right _ hg
    cases batchStep hp now specs hk₁ with
    | gone hj heq => rw [heq]; exact later (ih hp hk)
    | refused hj hr hw heq => rw [heq]; exact later (ih hp hk)
    | raised hj hr heq => rw [heq]; exact .refl _ s
    | @written old s₂ hj hr hw hwrote heq =>
      rw [heq]
      refine (hwrote.keepsGenerations ?_).trans (later (ih (hwrote.placed hp) hk))
      refine (Delivery.batchWrite_generation now spec old).imp (fun h => ⟨old, hj, h.symm⟩)
        fun hin => ?_
      rw [List.flatMap_cons]
      exact List.mem_append_left _ hin

theorem keepsGenerations_putAll {records : List JobRecord} (hp : s.Placed)
    (hjs : ∀ r ∈ records, r.jobsetId ∈ s.jobs.keys) :
    KeepsGenerations (records.map (·.generation)) s (s.putAll now records).2 := by
  induction records generalizing s with
  | nil => exact .refl _ s
  | cons r records ih =>
    obtain ⟨hr, hjs⟩ := List.forall_mem_cons.mp hjs
    obtain ⟨s₁, hs₁, hw⟩ := putRec_wrote (s := s)
      (r := { r with updatedAt := some (r.updatedAt.getD now) }) hr
    have hrest := ih (hw.placed hp) fun x hx => by
      rw [(hw.placed hp).jobs_iff, hw.jobsets, ← hp.jobs_iff]
      exact hjs x hx
    have hout : (s.putAll now (r :: records)).2 = (s₁.putAll now records).2 := by
      simp only [putAll, hs₁]
    rw [hout]
    exact (hw.keepsGenerations (.inr List.mem_cons_self)).trans
      (hrest.mono fun g hg => List.mem_cons_of_mem _ hg)

/-- **A write of any kind**, successful or not. -/
theorem keepsGenerations_perform (hr : s.Represented) {op : Op} (hrem : removes op = false) :
    KeepsGenerations (generations op) s (s.perform op).2 := by
  have hp := hr.placed
  cases op with
  | insertJobset now record =>
    rw [perform]
    rcases hs : s.storeInsertJobset now record with e | ⟨out, s'⟩
    · exact .refl _ s
    · exact .of_job? (Delivery.storeInsertJobset_job? hp hs)
  | updateJobset record =>
    rw [perform]
    rcases hs : s.updateJobset record with e | ⟨out, s'⟩
    · exact .refl _ s
    · exact .of_job? (Delivery.updateJobset_job? hs)
  | deleteJobset | deleteJob | deleteJobs => cases hrem
  | addJob now r =>
    rw [perform]
    rcases hs : s.storeAddJob now r with e | ⟨out, s'⟩
    · exact .refl _ s
    · exact keepsGenerations_storeAddJob hs
  | addJobs now records =>
    rw [perform, batch_snd, storeAddJobs]
    split
    · exact .refl _ s
    case h_2 heq => exact keepsGenerations_putAll hp (checkNewJobs_ok heq)
  | updateJob now r =>
    rw [perform]
    rcases hs : s.updateJob now r with e | ⟨out, s'⟩
    · exact .refl _ s
    · exact keepsGenerations_updateJob hs
  | transition now js k ns guard fields =>
    rw [perform]
    rcases hs : s.transition now js k ns guard fields with e | ⟨out, s'⟩
    · exact .refl _ s
    · exact keepsGenerations_transition hp hs
  | transitionMany now js specs =>
    rw [perform, batch_snd, transitionMany]
    split
    · exact .refl _ s
    case h_2 heq => exact keepsGenerations_transitionManyImpl hp (List.findSome?_eq_none_iff.mp heq)

end Keeps

end InMemoryStore

end Lsfmgr
