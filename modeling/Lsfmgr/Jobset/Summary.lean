import Mathlib
import Lsfmgr.Store.Shape
import Lsfmgr.Jobset.Core

/-!
# Jobset/Summary — the summary of a jobset always adds up

`Fits` says that no jobset has more records than its `intended_count`.  A worker write keeps it
because it touches no key set; an operation of the manager lets it fail for its own jobset while it
edits (`FitsBut`) and restores it by `growIntendedCount` or `syncIntendedCount` before it ends.
That it gets there is the point: between its first write and its last nothing raises.
-/

namespace Lsfmgr

open Machinery

open InMemoryStore (Touched Represented)

namespace Jobset

/-! ## The invariant -/

/-- **Outside `F`, no jobset has more records than it is meant to have**; every jobset lies under
its own id. -/
structure FitsBut (F : Set String) (s : InMemoryStore) : Prop where
  represented : s.Represented
  own : ∀ js r, s.jobsets.get? js = some r → r.jobsetId = js
  fits : ∀ js r, js ∉ F → s.jobsets.get? js = some r → (s.recordCount js : ℤ) ≤ r.intendedCount

abbrev Fits : InMemoryStore → Prop := FitsBut ∅

theorem fits_empty : Fits {} where
  represented := InMemoryStore.represented_empty
  own _ _ h := by simp at h
  fits _ _ _ h := by simp at h

section FitsBut

variable {F : Set String} {s s' : InMemoryStore}

theorem FitsBut.mono {F' : Set String} (h : FitsBut F s) (hF : F ⊆ F') : FitsBut F' s :=
  ⟨h.represented, h.own, fun js r hjs => h.fits js r fun hmem => hjs (hF hmem)⟩

/-- What a write touches need not fit any more. -/
theorem FitsBut.touched (h : FitsBut F s) (ht : Touched F s s') (hr : s'.Represented) :
    FitsBut F s' where
  represented := hr
  own js r hjs := h.own js r (by rwa [← ht.jobsets])
  fits js r hF hjs := by
    rw [ht.recordCount hF]
    exact h.fits js r hF (by rwa [← ht.jobsets])

/-- **The count is set right**, and everything fits again. -/
theorem FitsBut.updateJobset {js : String} {r out : JobSetRecord} {n : ℤ} (h : FitsBut {js} s)
    (hr : s.jobsets.get? js = some r) (hn : s.recordCount js ≤ n)
    (hs : s.updateJobset { r with intendedCount := n } = .ok (out, s')) : Fits s' := by
  have hid : r.jobsetId = js := h.own js r hr
  have hs' : s' = { s with jobsets := s.jobsets.set js { r with intendedCount := n } } := by
    simp only [InMemoryStore.updateJobset, hid, Dict.mem_keys.mpr ⟨r, hr⟩, if_true] at hs
    rw [← (Prod.mk.inj (Except.ok.inj hs)).2, ← hid]
  have hjobsets : ∀ js', s'.jobsets.get? js'
      = if js' = js then some { r with intendedCount := n } else s.jobsets.get? js' := fun js' => by
    rw [hs', Dict.get?_set]
  have hcount : s'.recordCount = s.recordCount := by rw [hs']; rfl
  refine ⟨h.represented.updateJobset hs, fun js' r' hr' => ?_, fun js' r' _ hr' => ?_⟩
  · rw [hjobsets] at hr'
    split at hr'
    case isTrue heq => rw [← Option.some.inj hr', heq]; exact hid
    case isFalse hne => exact h.own js' r' hr'
  · rw [hjobsets] at hr'
    rw [hcount]
    split at hr'
    case isTrue heq => rw [← Option.some.inj hr', heq]; exact hn
    case isFalse hne => exact h.fits js' r' hne hr'

end FitsBut

/-! ## What the workers keep -/

/-- What is kept by writes that touch no key set. -/
structure Stable (I : InMemoryStore → Prop) : Prop where
  represented : ∀ s, I s → s.Represented
  keep : ∀ s s', I s → Touched ∅ s s' → s'.Represented → I s'

theorem worker_touched {s : InMemoryStore} (h : s.Represented) (w : WorkerWrite) :
    Touched ∅ s (s.perform w.op).2 := by
  cases w with
  | transition now js k ns guard fields =>
    simp only [WorkerWrite.op, InMemoryStore.perform]
    rcases ht : s.transition now js k ns guard fields with e | ⟨out, s'⟩
    · exact Touched.refl s
    · exact InMemoryStore.transition_touched h.placed ht
  | transitionMany now js specs =>
    simp only [WorkerWrite.op, InMemoryStore.perform, InMemoryStore.batch_snd]
    exact InMemoryStore.transitionMany_touched now js specs h.placed

theorem Stable.worker {I : InMemoryStore → Prop} (hI : Stable I) (w : WorkerWrite)
    {s : InMemoryStore} (h : I s) : I (s.perform w.op).2 :=
  hI.keep s _ h (worker_touched (hI.represented s h) w) ((hI.represented s h).perform w.op)

theorem Stable.workers {I : InMemoryStore → Prop} (hI : Stable I) (writes : List WorkerWrite)
    {s : InMemoryStore} (h : I s) : I (workers s writes) := by
  induction writes generalizing s with
  | nil => exact h
  | cons w writes ih => exact ih (hI.worker w h)

theorem stable_fitsBut (F : Set String) : Stable (FitsBut F) where
  represented _ h := h.represented
  keep _ _ h ht hr := h.touched (ht.mono (Set.empty_subset F)) hr

section Stable

variable {I : InMemoryStore → Prop}

/-- A jobset in the store stays as it is. -/
theorem Stable.and_jobset (hI : Stable I) (js : String) (φ : Option JobSetRecord → Prop) :
    Stable fun s => I s ∧ φ (s.jobsets.get? js) where
  represented s h := hI.represented s h.1
  keep s s' h ht hr := ⟨hI.keep s s' h.1 ht hr, by rw [ht.jobsets]; exact h.2⟩

/-- So does the number of its records. -/
theorem Stable.and_recordCount (hI : Stable I) (js : String) (φ : ℕ → Prop) :
    Stable fun s => I s ∧ φ (s.recordCount js) where
  represented s h := hI.represented s h.1
  keep s s' h ht hr :=
    ⟨hI.keep s s' h.1 ht hr, by rw [ht.recordCount (Set.notMem_empty js)]; exact h.2⟩

/-- So does whether there is a record at a key. -/
theorem Stable.and_present (hI : Stable I) (js : String) (φ : (String → Bool) → Prop) :
    Stable fun s => I s ∧ φ fun k => (s.job? js k).isSome where
  represented s h := hI.represented s h.1
  keep s s' h ht hr := by
    have hsame : (fun k => (s'.job? js k).isSome) = fun k => (s.job? js k).isSome :=
      funext fun k => Bool.eq_iff_iff.mpr (ht.keys js k (Set.notMem_empty js))
    exact ⟨hI.keep s s' h.1 ht hr, by rw [hsame]; exact h.2⟩

end Stable

/-! ## Triples over the store -/

/-- From a store in `I` the program returns in `Q`, or raises in `E`. -/
def Meets {α : Type} (I : InMemoryStore → Prop) (m : Manager α) (Q : α → InMemoryStore → Prop)
    (E : InMemoryStore → Prop) : Prop :=
  Prog.Triple (fun w => I w.store) m (fun a w => Q a w.store) fun _ w => E w.store

section Meets

variable {α : Type} {I E : InMemoryStore → Prop} {Q : α → InMemoryStore → Prop}

theorem meets_call {f : InMemoryStore → Except StoreError α × InMemoryStore} (hI : Stable I)
    (h : ∀ s, I s → (∀ a s', f s = (.ok a, s') → Q a s') ∧ ∀ e s', f s = (.error e, s') → E s') :
    Meets I (call f) Q E := by
  intro w hw
  obtain ⟨hok, herr⟩ := h _ (hI.workers (w.schedule.headD []) hw)
  rw [call]
  rcases hf : f (workers w.store (w.schedule.headD [])) with ⟨e | a, s'⟩
  · refine ⟨fun a w' heq => (by cases heq), fun e' w' heq => ?_⟩
    obtain ⟨-, rfl⟩ := Prod.mk.inj heq
    exact herr e s' hf
  · refine ⟨fun a' w' heq => ?_, fun e w' heq => (by cases heq)⟩
    obtain ⟨ha, rfl⟩ := Prod.mk.inj heq
    obtain rfl := Except.ok.inj ha
    exact hok a s' hf

theorem meets_query {f : InMemoryStore → Except StoreError α} (hI : Stable I)
    (hok : ∀ s a, I s → f s = .ok a → Q a s) (herr : ∀ s e, I s → f s = .error e → E s) :
    Meets I (query f) Q E :=
  meets_call hI fun s hs =>
    ⟨fun a s' heq => by
      obtain ⟨ha, rfl⟩ := Prod.mk.inj heq
      exact hok s a hs ha,
    fun e s' heq => by
      obtain ⟨he, rfl⟩ := Prod.mk.inj heq
      exact herr s e hs he⟩

theorem meets_update {f : InMemoryStore → Except StoreError (α × InMemoryStore)} (hI : Stable I)
    (hok : ∀ s a s', I s → f s = .ok (a, s') → Q a s') (herr : ∀ s e, I s → f s = .error e → E s) :
    Meets I (update f) Q E :=
  meets_call hI fun s hs => by
    rcases hf : f s with e | ⟨a, s'⟩
    · refine ⟨fun a s' heq => (by cases heq), fun e' s' heq => ?_⟩
      obtain ⟨-, rfl⟩ := Prod.mk.inj heq
      exact herr s e hs hf
    · refine ⟨fun a' s'' heq => ?_, fun e s' heq => (by cases heq)⟩
      obtain ⟨ha, rfl⟩ := Prod.mk.inj heq
      obtain rfl := Except.ok.inj ha
      exact hok s a s' hs hf

end Meets

/-! The rules of `Prog.Triple`, over the store. -/

section Rules

variable {α β : Type} {I E : InMemoryStore → Prop} {Q : α → InMemoryStore → Prop} {m : Manager α}

theorem Meets.bind {R : β → InMemoryStore → Prop} {f : α → Manager β} (hm : Meets I m Q E)
    (hf : ∀ a, Meets (Q a) (f a) R E) : Meets I (m >>= f) R E := Prog.Triple.bind hm hf

theorem Meets.ret {a : α} (h : ∀ s, I s → Q a s) : Meets I (pure a) Q E :=
  Prog.Triple.ret fun w => h w.store

theorem Meets.raise {e : ManagerError} (h : ∀ s, I s → E s) : Meets I (Prog.raise e) Q E :=
  Prog.Triple.raise fun w => h w.store

theorem Meets.check {x : Except ManagerError α} (hok : ∀ a s, x = .ok a → I s → Q a s)
    (herr : ∀ s, I s → E s) : Meets I (Prog.ofExcept x) Q E :=
  Prog.Triple.ofExcept (fun a w => hok a w.store) fun _ w _ => herr w.store

theorem Meets.ite {c : Prop} [Decidable c] {m₁ m₂ : Manager α} (h₁ : c → Meets I m₁ Q E)
    (h₂ : ¬c → Meets I m₂ Q E) : Meets I (if c then m₁ else m₂) Q E := Prog.Triple.ite h₁ h₂

theorem Meets.mono {I' E' : InMemoryStore → Prop} {Q' : α → InMemoryStore → Prop}
    (h : Meets I m Q E) (hI : ∀ s, I' s → I s) (hQ : ∀ a s, Q a s → Q' a s)
    (hE : ∀ s, E s → E' s) : Meets I' m Q' E' :=
  Prog.Triple.mono h (fun w => hI w.store) (fun a w => hQ a w.store) fun _ w => hE w.store

/-- A fact beside the precondition may be assumed. -/
theorem Meets.assuming {φ : Prop} (h : φ → Meets I m Q E) : Meets (fun s => I s ∧ φ) m Q E :=
  Prog.Triple.assuming (fun _ hw => hw.2) fun hφ =>
    show Meets (fun s => I s ∧ φ) m Q E from
      (h hφ).mono (fun _ hs => hs.1) (fun _ _ h => h) fun _ h => h

theorem Meets.each {f : α → Manager β} {J : List α → InMemoryStore → Prop}
    (hstep : ∀ a as, Meets (J (a :: as)) (f a) (fun _ => J as) E) (as : List α) :
    Meets (J as) (Prog.each f as) (fun _ => J []) E :=
  Prog.Triple.each (I := fun as (w : World) => J as w.store) hstep as

/-- A program that cannot raise, as part of one that can. -/
theorem Meets.total (h : Meets I m Q fun _ => False) : Meets I m Q E :=
  h.mono (fun _ h => h) (fun _ _ h => h) fun _ h => h.elim

/-- What the last step returns does not matter. -/
theorem Meets.andThen {P : InMemoryStore → Prop} {b : β} (h : Meets I m (fun _ => P) E) :
    Meets I (m >>= fun _ => pure b) (fun _ => P) E := h.bind fun _ => .ret fun _ h => h

end Rules

/-! ## The operations -/

theorem getJobset_ok {s : InMemoryStore} {js : String} {r : JobSetRecord} :
    s.getJobset js = .ok r ↔ s.jobsets.get? js = some r := by
  rw [InMemoryStore.getJobset]
  rcases s.jobsets.get? js with _ | r' <;> simp

theorem countJobs_ok {s : InMemoryStore} (hp : s.Placed) {js : String}
    (h : (s.jobsets.get? js).isSome) : s.countJobs js = .ok (s.recordCount js) := by
  obtain ⟨r, hr⟩ := Option.isSome_iff_exists.mp h
  obtain ⟨jobs, hj⟩ := Dict.mem_keys.mp ((hp.jobs_iff js).mpr (Dict.mem_keys.mpr ⟨r, hr⟩))
  rw [InMemoryStore.countJobs, getJobset_ok.mpr hr, InMemoryStore.recordCount]
  simp [Except.bind, hj]

section Operations

variable {js : String} {now : Time}

/-- The jobset being edited: it exists, and all others fit. -/
def Editing (js : String) (s : InMemoryStore) : Prop :=
  FitsBut {js} s ∧ (s.jobsets.get? js).isSome

theorem stable_editing (js : String) : Stable (Editing js) :=
  (stable_fitsBut _).and_jobset js fun r => r.isSome

theorem Editing.touched {s s' : InMemoryStore} (h : Editing js s) (ht : Touched {js} s s')
    (hr : s'.Represented) : Editing js s' :=
  ⟨h.1.touched ht hr, by rw [ht.jobsets]; exact h.2⟩

/-- **Restoring the count** never raises, and afterwards everything fits. -/
theorem meets_recount {stale : ℤ → ℕ → Bool} (hstale : ∀ i n, stale i n = false → (n : ℤ) ≤ i) :
    Meets (Editing js) (recount js stale) (fun _ => Fits) fun _ => False := by
  refine Meets.bind (Q := fun r s => FitsBut {js} s ∧ s.jobsets.get? js = some r) ?_ fun r => ?_
  · refine meets_query (stable_editing js) (fun s r h hr => ⟨h.1, getJobset_ok.mp hr⟩)
      fun s e h he => ?_
    obtain ⟨r, hr⟩ := Option.isSome_iff_exists.mp h.2
    rw [getJobset_ok.mpr hr] at he
    cases he
  have hst : Stable fun s => FitsBut {js} s ∧ s.jobsets.get? js = some r :=
    (stable_fitsBut _).and_jobset js (· = some r)
  refine Meets.bind (Q := fun n s => (FitsBut {js} s ∧ s.jobsets.get? js = some r) ∧
    s.recordCount js = n) ?_ fun n => ?_
  · refine meets_query hst (fun s n h hn => ⟨h, ?_⟩) fun s e h he => ?_ <;>
      rw [countJobs_ok h.1.represented.placed (by rw [h.2]; rfl)] at *
    · exact Except.ok.inj hn
    · cases he
  refine Meets.ite (fun hc => ?_) fun hc => ?_
  · refine Meets.bind (Q := fun _ => Fits) (meets_update (hst.and_recordCount js (· = n))
      (fun s out s' h hs => ?_) fun s e h he => ?_) fun _ => Meets.ret fun s h => h
    · exact h.1.1.updateJobset h.1.2 (by rw [h.2]) hs
    · rw [InMemoryStore.updateJobset, if_pos] at he
      · cases he
      · rw [h.1.1.own js r h.1.2]
        exact Dict.mem_keys.mpr ⟨r, h.1.2⟩
  · refine Meets.ret fun s h => ?_
    obtain ⟨⟨hfit, hr⟩, hn⟩ := h
    refine ⟨hfit.represented, hfit.own, fun js' r' _ hr' => ?_⟩
    by_cases hjs : js' = js
    · subst hjs
      obtain rfl := Option.some.inj (hr.symm.trans hr')
      rw [hn]
      exact hstale _ _ (by simpa using hc)
    · exact hfit.fits js' r' hjs hr'

theorem meets_sync : Meets (Editing js) (syncIntendedCount js) (fun _ => Fits) fun _ => False :=
  meets_recount fun i n h => by simp at h; omega

theorem meets_grow : Meets (Editing js) (growIntendedCount js) (fun _ => Fits) fun _ => False :=
  meets_recount fun i n h => by simpa using h

/-- The lookup every operation starts with. -/
theorem meets_getJobset : Meets Fits (query fun s => s.getJobset js)
    (fun _ s => Fits s ∧ (s.jobsets.get? js).isSome) Fits :=
  meets_query (stable_fitsBut _)
    (fun _ _ h hr => ⟨h, Option.isSome_iff_exists.mpr ⟨_, getJobset_ok.mp hr⟩⟩) fun _ _ h _ => h

theorem stable_there (js : String) : Stable fun s => Fits s ∧ (s.jobsets.get? js).isSome :=
  (stable_fitsBut _).and_jobset js fun r => r.isSome

theorem Editing.of_fits {s : InMemoryStore} (h : Fits s ∧ (s.jobsets.get? js).isSome) :
    Editing js s := ⟨h.1.mono (Set.empty_subset _), h.2⟩

/-! ### Creation -/

theorem meets_localCreateJobset {generated label : String} {n : ℤ} {tags : List String}
    {id : Option String} :
    Meets Fits (localCreateJobset now generated n label tags id) (fun _ => Fits) Fits := by
  refine Meets.ite (fun _ => Meets.raise fun _ h => h) fun hn => ?_
  refine meets_update (stable_fitsBut _) (fun s out s' h hs => ?_) fun _ _ h _ => h
  generalize hrec : ({ jobsetId := _, intendedCount := n, label, tags, createdAt := some now } :
    JobSetRecord) = record at hs
  have hn' : 0 ≤ record.intendedCount := by rw [← hrec]; simpa using hn
  have hr := h.represented.storeInsertJobset hs
  rw [InMemoryStore.storeInsertJobset] at hs
  split at hs
  case isTrue => cases hs
  case isFalse hfree =>
    obtain ⟨-, rfl⟩ := Prod.mk.inj (Except.ok.inj hs)
    -- the new jobset had no records
    have hnone : s.jobs.get? record.jobsetId = none :=
      Dict.get?_eq_none.mpr fun hm => hfree ((h.represented.placed.jobs_iff _).mp hm)
    refine ⟨hr, fun js r hjs => ?_, fun js r _ hjs => ?_⟩
    · rw [Dict.get?_set] at hjs
      split at hjs
      case isTrue heq => rw [← Option.some.inj hjs, heq]
      case isFalse => exact h.own js r hjs
    · rw [InMemoryStore.recordCount]
      simp only [Dict.get?_set, hnone] at hjs ⊢
      split at hjs
      case isTrue heq =>
        rw [← Option.some.inj hjs, if_pos heq]
        simpa using hn'
      case isFalse hne =>
        rw [if_neg hne]
        exact h.fits js r (Set.notMem_empty _) hjs

theorem checkRecords_ok {seen : List String} {records : List JobRecord}
    (h : checkRecords js seen records = .ok ()) :
    (∀ r ∈ records, r.jobsetId = js) ∧ (records.map (·.jobKey)).Nodup ∧
      ∀ r ∈ records, r.jobKey ∉ seen := by
  induction records generalizing seen with
  | nil => simp
  | cons rec records ih =>
    rw [checkRecords] at h
    split at h
    case isTrue => cases h
    case isFalse hjs =>
      split at h
      case isTrue => cases h
      case isFalse =>
        split at h
        case isTrue => cases h
        case isFalse hfresh =>
          obtain ⟨hown, hnd, hseen⟩ := ih h
          refine ⟨List.forall_mem_cons.mpr ⟨not_not.mp hjs, hown⟩, ?_,
            List.forall_mem_cons.mpr ⟨hfresh, fun r hr hm =>
              hseen r hr (List.mem_cons_of_mem _ hm)⟩⟩
          rw [List.map_cons, List.nodup_cons]
          refine ⟨fun hm => ?_, hnd⟩
          obtain ⟨r, hr, hkey⟩ := List.mem_map.mp hm
          exact hseen r hr (hkey ▸ List.mem_cons_self)

/-- The insertion of new records: none of them, or all in this jobset. -/
theorem meets_storeAddJobs {records : List JobRecord} (hjs : ∀ r ∈ records, r.jobsetId = js) :
    Meets (fun s => Fits s ∧ (s.jobsets.get? js).isSome)
      (call fun s => s.storeAddJobs now records) (fun _ => Editing js) Fits := by
  refine meets_call (stable_there js) fun s h => ⟨fun out s' hs => ?_, fun e s' hs => ?_⟩
  · have hr := h.1.represented.perform (.addJobs now records)
    rw [InMemoryStore.perform, InMemoryStore.batch_snd, hs] at hr
    refine (Editing.of_fits h).touched ?_ hr
    rw [InMemoryStore.storeAddJobs] at hs
    split at hs
    case h_1 => cases hs
    case h_2 =>
      have ht := InMemoryStore.putAll_touched now h.1.represented.placed hjs
      rwa [hs] at ht
  · have := InMemoryStore.storeAddJobs_unchanged h.1.represented.placed
      (congrArg Prod.fst hs)
    rw [hs] at this
    exact (show s' = s from this) ▸ h.1

theorem meets_localCreateJobs {records : List JobRecord} :
    Meets Fits (localCreateJobs now js records) (fun _ => Fits) Fits := by
  refine Meets.ite (fun _ => Meets.ret fun _ h => h) fun _ => ?_
  refine meets_getJobset.bind fun _ => ?_
  refine Meets.bind (Q := fun _ s => (Fits s ∧ (s.jobsets.get? js).isSome) ∧
    ∀ r ∈ records, r.jobsetId = js) (Meets.check (fun _ s hc h => ⟨h, (checkRecords_ok hc).1⟩)
      fun s h => h.1) fun _ => ?_
  refine Meets.assuming fun hjs => ?_
  refine Meets.bind (Q := fun _ s => Fits s ∧ (s.jobsets.get? js).isSome)
    (meets_query (stable_there js) (fun _ _ h _ => h) fun _ _ h _ => h.1) fun existing => ?_
  split
  · exact Meets.raise fun _ h => h.1
  · refine (meets_storeAddJobs hjs).bind fun out => ?_
    exact meets_grow.total.andThen

/-! ### Deletion -/

theorem meets_deleteJobs {targets : List JobRecord} {force : Bool} {what : String} :
    Meets (fun s => Fits s ∧ (s.jobsets.get? js).isSome) (deleteJobs js targets force what)
      (fun _ => Fits) Fits := by
  refine Meets.ite (fun _ => Meets.raise fun _ h => h.1) fun _ => ?_
  refine Meets.bind (Q := fun _ => Editing js) (meets_call (stable_there js) fun s h =>
    ⟨fun out s' hs => ?_, fun e s' hs => by cases hs⟩) fun removed => ?_
  · obtain ⟨-, rfl⟩ := Prod.mk.inj hs
    exact (Editing.of_fits h).touched (InMemoryStore.storeDeleteJobs_touched js _)
      (h.1.represented.storeDeleteJobs js _)
  · exact meets_sync.total.andThen

theorem meets_localRemoveJobs {ks : List String} {force : Bool} :
    Meets Fits (localRemoveJobs js ks force) (fun _ => Fits) Fits := by
  refine Meets.ite (fun _ => Meets.raise fun _ h => h) fun _ => ?_
  refine meets_getJobset.bind fun _ => ?_
  refine Meets.bind (Q := fun _ s => Fits s ∧ (s.jobsets.get? js).isSome)
    (meets_query (stable_there js) (fun _ _ h _ => h) fun _ _ h _ => h.1) fun byKey => ?_
  refine Meets.bind (Q := fun _ s => Fits s ∧ (s.jobsets.get? js).isSome)
    (Meets.check (fun _ _ _ h => h) fun _ h => h.1) fun targets => meets_deleteJobs

theorem getJobs_ok {s : InMemoryStore} {jobs : List JobRecord} (h : s.getJobs js = .ok jobs) :
    (s.jobsets.get? js).isSome := by
  rw [InMemoryStore.getJobs] at h
  split at h
  case isTrue hm => exact Option.isSome_iff_exists.mpr (Dict.mem_keys.mp hm)
  case isFalse => cases h

theorem meets_localClearJobs {force : Bool} :
    Meets Fits (localClearJobs js force) (fun _ => Fits) Fits :=
  (meets_query (Q := fun _ s => Fits s ∧ (s.jobsets.get? js).isSome) (stable_fitsBut _)
    (fun _ _ h hj => ⟨h, getJobs_ok hj⟩) fun _ _ h _ => h).bind fun _ => meets_deleteJobs

/-! ### Editing -/

theorem editPlan_ok {policy : Policy} {byKey : Dict String JobRecord} {records : List JobRecord}
    {plan : List (JobRecord × Option JobRecord)}
    (h : editPlan js policy byKey records = .ok plan) :
    plan = records.map fun rec => (rec, byKey.get? rec.jobKey) := by
  induction records generalizing plan with
  | nil => obtain rfl := Except.ok.inj h; rfl
  | cons rec records ih =>
    simp only [editPlan] at h
    split at h
    case isTrue => cases h
    case isFalse =>
      split at h
      case isTrue => cases h
      case isFalse =>
        obtain ⟨rest, hrest, rfl⟩ := except_map_eq_ok.mp h
        rw [ih hrest, List.map_cons]

/-- What the loop knows of the items still to come: their keys are distinct, and a record is there
exactly for those that replace one. -/
def Ahead (js : String) (plan : List (JobRecord × Option JobRecord)) (there : String → Bool) :
    Prop :=
  (plan.map (·.1.jobKey)).Nodup ∧ ∀ p ∈ plan, p.1.jobsetId = js ∧ there p.1.jobKey = p.2.isSome

/-- **One edit cannot raise**, and leaves the items still to come as they were. -/
theorem meets_editOne (p : JobRecord × Option JobRecord)
    (ps : List (JobRecord × Option JobRecord)) :
    Meets (fun s => Editing js s ∧ Ahead js (p :: ps) fun k => (s.job? js k).isSome)
      (editOne now p)
      (fun _ s => Editing js s ∧ Ahead js ps fun k => (s.job? js k).isSome) fun _ => False := by
  have hst : Stable fun s => Editing js s ∧ Ahead js (p :: ps) fun k => (s.job? js k).isSome :=
    (stable_editing js).and_present js (Ahead js (p :: ps))
  have hrest : ∀ s s' r, Editing js s ∧ (Ahead js (p :: ps) fun k => (s.job? js k).isSome) →
      InMemoryStore.Wrote s js p.1.jobKey (some r) s' → s'.Represented →
      Editing js s' ∧ Ahead js ps fun k => (s'.job? js k).isSome := by
    intro s s' r h hw hr
    obtain ⟨hfresh, hnd⟩ := List.nodup_cons.mp h.2.1
    refine ⟨h.1.touched hw.touched hr, hnd, fun q hq => ?_⟩
    obtain ⟨hown, hthere⟩ := h.2.2 q (List.mem_cons_of_mem _ hq)
    refine ⟨hown, ?_⟩
    simp only
    rw [hw.job?, if_neg fun hc => hfresh (List.mem_map.mpr ⟨q, hq, hc.2⟩)]
    exact hthere
  obtain ⟨rec, old | old⟩ := p
  · refine meets_update hst (fun s out s' h hs => ?_) fun s e h he => ?_ <;>
      obtain ⟨rfl, hthere⟩ := h.2.2 _ List.mem_cons_self
    · obtain ⟨-, -, hw⟩ := InMemoryStore.storeAddJob_ok hs
      exact hrest s s' _ h hw (h.1.1.represented.storeAddJob hs)
    · obtain ⟨_, _, hs⟩ := InMemoryStore.storeAddJob_succeeds now h.1.1.represented.placed
        (Dict.mem_keys.mpr (Option.isSome_iff_exists.mp h.1.2)) (by simpa using hthere)
      rw [hs] at he
      cases he
  · refine meets_update hst (fun s out s' h hs => ?_) fun s e h he => ?_ <;>
      obtain ⟨rfl, hthere⟩ := h.2.2 _ List.mem_cons_self
    · obtain ⟨_, _, -, hw⟩ := InMemoryStore.updateJob_ok hs
      exact hrest s s' _ h hw (h.1.1.represented.updateJob hs)
    · obtain ⟨cur, hcur⟩ := Option.isSome_iff_exists.mp (by simpa using hthere)
      obtain ⟨_, _, hs⟩ := InMemoryStore.updateJob_succeeds now hcur
      rw [hs] at he
      cases he

theorem meets_localEditJobs {records : List JobRecord} {policy : String} {force : Bool} :
    Meets Fits (localEditJobs now js records policy force) (fun _ => Fits) Fits := by
  rw [localEditJobs]
  split
  · exact Meets.raise fun _ h => h
  refine meets_getJobset.bind fun _ => ?_
  refine Meets.bind (Q := fun _ s => (Fits s ∧ (s.jobsets.get? js).isSome) ∧
    checkRecords js [] records = .ok ()) (Meets.check (fun _ s hc h => ⟨h, hc⟩) fun s h => h.1)
    fun _ => ?_
  refine Meets.assuming fun hrecords => ?_
  obtain ⟨hown, hnd, -⟩ := checkRecords_ok hrecords
  -- what the lookup saw stays true: the workers touch no keys
  refine Meets.bind (Q := fun byKey s => (Fits s ∧ (s.jobsets.get? js).isSome) ∧
    Ahead js (records.map fun rec => (rec, byKey.get? rec.jobKey)) fun k => (s.job? js k).isSome)
    (meets_query (stable_there js) (fun s byKey h hb => ⟨h, ?_, ?_⟩) fun _ _ h _ => h.1)
    fun byKey => ?_
  · rw [List.map_map]
    exact hnd
  · obtain rfl := Except.ok.inj hb
    intro p hp
    obtain ⟨rec, hrec, rfl⟩ := List.mem_map.mp hp
    exact ⟨hown rec hrec, by rw [InMemoryStore.get?_getJobsByKeys s _ (List.mem_map_of_mem hrec)]⟩
  refine Meets.bind (Q := fun plan s => (Fits s ∧ (s.jobsets.get? js).isSome) ∧
    Ahead js plan fun k => (s.job? js k).isSome)
    (Meets.check (fun plan s hp h => by rw [editPlan_ok hp]; exact h) fun s h => h.1.1)
    fun plan => ?_
  refine Meets.ite (fun _ => Meets.raise fun _ h => h.1.1) fun _ => ?_
  refine Meets.bind (Q := fun _ => Editing js) ?_ fun changed => meets_sync.total.andThen
  exact (Meets.each (J := fun ps s => Editing js s ∧ Ahead js ps fun k => (s.job? js k).isSome)
    meets_editOne plan).mono (fun s h => ⟨Editing.of_fits h.1, h.2⟩) (fun _ s h => h.1)
    fun _ h => h.elim

/-! ### Loss and removal -/

theorem meets_detectLost : Meets Fits (detectLost now js) (fun _ => Fits) Fits := by
  have hkeep : ∀ {α : Type} {f : InMemoryStore → Except StoreError α},
      Meets Fits (query f) (fun _ => Fits) Fits :=
    meets_query (stable_fitsBut _) (fun _ _ h _ => h) fun _ _ h _ => h
  refine hkeep.bind fun _ => hkeep.bind fun records => ?_
  refine Meets.ite (fun _ => Meets.ret fun _ h => h) fun _ => ?_
  refine meets_call (stable_fitsBut _) fun s h => ?_
  have hfits : ∀ specs out s', s.transitionMany now js specs = (out, s') → Fits s' := by
    intro specs out s' hs
    have ht := InMemoryStore.transitionMany_touched now js specs h.represented.placed
    have hr := h.represented.transitionMany now js specs
    rw [hs] at ht hr
    exact h.touched ht hr
  exact ⟨fun out s' hs => hfits _ _ _ hs, fun e s' hs => hfits _ _ _ hs⟩

theorem FitsBut.storeDeleteJobset {F : Set String} {s : InMemoryStore} (h : FitsBut F s)
    (js : String) : FitsBut F (s.storeDeleteJobset js) := by
  refine ⟨h.represented.storeDeleteJobset js, fun js' r hr => ?_, fun js' r hF hr => ?_⟩ <;>
    simp only [InMemoryStore.storeDeleteJobset, Dict.get?_erase] at hr <;>
    split at hr
  case isTrue => cases hr
  case isFalse => exact h.own js' r hr
  case isTrue => cases hr
  case isFalse hne =>
    have := h.fits js' r hF hr
    simpa [InMemoryStore.recordCount, InMemoryStore.storeDeleteJobset, Dict.get?_erase, hne]
      using this

theorem meets_localRemoveJobset {force : Bool} :
    Meets Fits (localRemoveJobset js force) (fun _ => Fits) Fits := by
  have hkeep : ∀ {α : Type} {f : InMemoryStore → Except StoreError α},
      Meets Fits (query f) (fun _ => Fits) Fits :=
    meets_query (stable_fitsBut _) (fun _ _ h _ => h) fun _ _ h _ => h
  refine hkeep.bind fun _ => hkeep.bind fun records => ?_
  refine Meets.ite (fun _ => Meets.raise fun _ h => h) fun _ => ?_
  refine Meets.andThen (meets_call (stable_fitsBut _) fun s h =>
    ⟨fun out s' hs => ?_, fun e s' hs => by cases hs⟩)
  obtain ⟨-, rfl⟩ := Prod.mk.inj hs
  exact h.storeDeleteJobset js

/-- **Every operation keeps the invariant**, whether it returns or raises. -/
theorem meets_prog (op : CoreOp) : Meets Fits op.prog (fun _ => Fits) Fits := by
  cases op with
  | createJobset => exact meets_localCreateJobset.andThen
  | createJobs => exact meets_localCreateJobs.andThen
  | editJobs => exact meets_localEditJobs.andThen
  | removeJobs => exact meets_localRemoveJobs.andThen
  | clearJobs => exact meets_localClearJobs.andThen
  | detectLost => exact meets_detectLost.andThen
  | removeJobset => exact meets_localRemoveJobset.andThen

end Operations

/-! ## Every run -/

theorem Fits.after {s : InMemoryStore} (h : Fits s) (e : Event) : Fits (after s e) := by
  cases e with
  | worker w => exact (stable_fitsBut ∅).worker w h
  | manager op schedule =>
    exact (meets_prog op).state (s := { store := s, schedule }) h

theorem fits_afterEvents (events : List Event) : Fits (afterEvents events) := by
  suffices ∀ s, Fits s → Fits (events.foldl Jobset.after s) from this {} fits_empty
  induction events with
  | nil => exact fun s h => h
  | cons e events ih => exact fun s h => ih _ (h.after e)

/-- **The summary of every jobset adds up**, after every sequence of operations and worker writes:
the total is the intended count, there are no more records than that, the counts of the states sum
to the total, and every count is positive. -/
theorem summary_afterEvents (events : List Event) :
    ∀ js r, (afterEvents events).jobsets.get? js = some r →
      ∃ out, (afterEvents events).summary js = .ok out ∧ out.total = r.intendedCount ∧
        (afterEvents events).recordCount js ≤ r.intendedCount ∧
        (out.counts.values.sum : ℤ) = out.total ∧ ∀ n ∈ out.counts.values, 0 < n := by
  intro js r hr
  have h := fits_afterEvents events
  generalize afterEvents events = s at h hr
  have hle := h.fits js r (Set.notMem_empty js) hr
  obtain ⟨jobs, hj⟩ := Dict.mem_keys.mp
    ((h.represented.placed.jobs_iff js).mpr (Dict.mem_keys.mpr ⟨r, hr⟩))
  obtain ⟨-, counts, hc, ht⟩ := h.represented.counts_get hj
  have hsum : (counts.values.sum : ℤ) ≤ r.intendedCount := by
    rw [ht.sum_values]
    simpa [InMemoryStore.recordCount, hj, Dict.keys, Dict.values] using hle
  obtain ⟨htotal, hpos⟩ := ht.summary hsum
  refine ⟨InMemoryStore.summaryFromCounts r counts, ?_, rfl, hle, htotal, hpos⟩
  rw [InMemoryStore.summary, getJobset_ok.mpr hr, hc]
  rfl

/-- A jobset meant to have two jobs, with one of them created; a worker writes while that
happens. -/
def oneOfTwo : List Event :=
  [.manager (.createJobset 0 "generated" 2 "sweep" [] (some "js")) [],
    .manager (.createJobs 1 "js" [{ jobsetId := "js", jobKey := "a", generation := 0 }])
      [[], [], [], [.transition 2 "js" "a" (some .submitting) none []]]]

/-- The job that has no record yet is counted as created. -/
theorem summary_oneOfTwo :
    ∃ out, (afterEvents oneOfTwo).summary "js" = .ok out ∧ out.total = 2 ∧
      (afterEvents oneOfTwo).recordCount "js" ≤ (2 : ℤ) ∧
      (out.counts.values.sum : ℤ) = out.total ∧ ∀ n ∈ out.counts.values, 0 < n :=
  summary_afterEvents oneOfTwo "js"
    { jobsetId := "js", intendedCount := 2, label := "sweep", createdAt := some 0 }
    (by decide +kernel)

end Jobset

end Lsfmgr
