import Mathlib
import Lsfmgr.Submit.Current

/-!
# Submit/Exposure — who is inside the submission section

A task is exposed to a kill from the moment it has entered the submission section until its outcome
is recorded.  The set `inflight` is meant to name the keys of the exposed tasks (`Exposed.covered`);
it does, unless a task leaves the section while another one of the same key is inside.

`Quiet` is what a kill wants of a key of a cycle: nothing of it is inside, and nothing gets in.
-/

namespace Lsfmgr.Submit

open Machinery

namespace Instr

/-- Between `_enter_inflight` and the recording of the outcome. -/
def exposes : Instr → Key → Bool
  | toSubmitting k _, k' | slotWait k _, k' | slotHeld k _, k' | running k _, k'
  | succeeded k _, k' => k = k'
  | _, _ => false

/-- The call of `run_submit`. -/
def submits : Instr → Key → Bool
  | running k _, k' => k = k'
  | _, _ => false

theorem exposes_of_submits {x : Instr} {k : Key} (h : x.submits k = true) :
    x.exposes k = true := by
  cases x <;> simp_all [submits, exposes]

/-- The instructions that touch `inflight`, the cancellation marks or the gate. -/
def isGate : Instr → Bool
  | enter .. | leave _ | register _ | newContext .. | unregister => true
  | _ => false

theorem units_of_exposes {x : Instr} {k : Key} (h : x.exposes k = true) (all : List Key) :
    k ∈ x.units all := by
  cases x <;> simp_all [exposes, units]

end Instr

section Exec

variable {P : Params} {o : Oracle} {c : ℕ} {cyc : Cycle} {w : Shared} {x : Instr} {e : Effect}

/-- What the other instructions leave alone. -/
structure Effect.Ungated (cyc : Cycle) (w : Shared) (e : Effect) : Prop where
  inflight : e.cyc.inflight = cyc.inflight
  cancelEvent : e.cyc.cancelEvent = cyc.cancelEvent
  cancelledKeys : e.cyc.cancelledKeys = cyc.cancelledKeys
  gate : e.gate = w.gate

theorem exec_ungated (hx : x.isGate = false) (h : exec P o c cyc w x = some e) :
    e.Ungated cyc w := by
  cases x
  case slotWait k a =>
    simp only [exec, slotWait] at h
    split at h <;> split at h <;> cases h <;> exact ⟨rfl, rfl, rfl, rfl⟩
  case count ks out ch =>
    obtain rfl := Option.some.inj h
    rw [count]
    split <;> [exact ⟨rfl, rfl, rfl, rfl⟩; cases out <;> exact ⟨rfl, rfl, rfl, rfl⟩]
  case finishForced ks f em =>
    obtain rfl := Option.some.inj h
    rw [finishForced]
    split <;> [exact ⟨rfl, rfl, rfl, rfl⟩; cases f <;> exact ⟨rfl, rfl, rfl, rfl⟩]
  case reset todo b prev l st sk =>
    obtain rfl := Option.some.inj h
    cases todo with
    | nil => exact ⟨rfl, rfl, rfl, rfl⟩
    | cons ki todo =>
      rw [resetRecords]
      repeat' split
      all_goals exact ⟨rfl, rfl, rfl, rfl⟩
  case fanOut todo =>
    obtain rfl := Option.some.inj h
    cases todo <;> exact ⟨rfl, rfl, rfl, rfl⟩
  case gateFail ks todo m st =>
    obtain rfl := Option.some.inj h
    cases todo with
    | nil => exact ⟨rfl, rfl, rfl, rfl⟩
    | cons r todo => rw [gateFail]; split <;> exact ⟨rfl, rfl, rfl, rfl⟩
  case fire k =>
    obtain rfl := Option.some.inj h
    rw [fire]
    split
    case h_1 => exact ⟨rfl, rfl, rfl, rfl⟩
    case h_2 hpop =>
      have heq := (Cycle.popRetry_spec hpop).2.2.2
      have h₁ := congrArg Cycle.inflight heq
      have h₂ := congrArg Cycle.cancelEvent heq
      have h₃ := congrArg Cycle.cancelledKeys heq
      exact ⟨h₁, h₂, h₃, rfl⟩
  case enter | leave | register | newContext | unregister => cases hx
  all_goals
    obtain rfl := Option.some.inj h
    simp only [toSubmitting, slotHeld, runSubmit, taskSucceeded, taskFailed, retryCheck,
      toRetryWait, markRetried, scheduleRetry, requestRetry, toSubmitFailed, markCancelled,
      taskCrashed, releaseSlot, note, emitProgress, finishIfDone, dropContext, onRetryRequested,
      fired, finalizeRetry, finalizeRetryWrite, startLaunch, preSubmitStart, preSubmitRun,
      preSubmitOk, launchCycle, readBlocked, readPrevious, makeTasks, checkFinished, announce,
      gateReject, vanished]
    repeat' split
    all_goals exact ⟨rfl, rfl, rfl, rfl⟩

/-- A cancellation is never taken back. -/
theorem exec_isCancelled {k : Key} (hk : cyc.isCancelled k = true)
    (h : exec P o c cyc w x = some e) : e.cyc.isCancelled k = true := by
  rcases hx : x.isGate with _ | _
  · have u := exec_ungated hx h
    rwa [Cycle.isCancelled, u.cancelEvent, u.cancelledKeys]
  · cases x
    case enter k' a =>
      obtain rfl := Option.some.inj h
      rw [enterInflight]
      split <;> exact hk
    case leave k' => obtain rfl := Option.some.inj h; exact hk
    case register b => obtain rfl := Option.some.inj h; exact hk
    case unregister => obtain rfl := Option.some.inj h; exact hk
    case newContext reg b =>
      obtain rfl := Option.some.inj h
      simp only [Cycle.isCancelled, Bool.or_eq_true, decide_eq_true_eq] at hk ⊢
      rw [newContext]
      split
      · exact hk.imp_right fun hk => Finset.mem_union_left _ hk
      · exact .inl rfl
    all_goals cases hx

/-- A key gets into the section only through `_enter_inflight`, and not when it is cancelled; it
leaves only through `_leave_inflight`. -/
theorem exec_inflight (h : exec P o c cyc w x = some e) (k : Key) :
    (k ∈ e.cyc.inflight → k ∈ cyc.inflight ∨ (∃ a, x = .enter k a) ∧ cyc.isCancelled k = false) ∧
      (k ∈ cyc.inflight → k ∈ e.cyc.inflight ∨ x = .leave k) := by
  rcases hx : x.isGate with _ | _
  · have u := exec_ungated hx h
    rw [u.inflight]
    exact ⟨.inl, .inl⟩
  · cases x
    case enter k' a =>
      obtain rfl := Option.some.inj h
      rw [enterInflight]
      split
      case isTrue => exact ⟨.inl, .inl⟩
      case isFalse hnc =>
        refine ⟨fun hk => ?_, fun hk => .inl (Finset.mem_insert_of_mem hk)⟩
        rcases Finset.mem_insert.mp hk with rfl | hk
        · exact .inr ⟨⟨a, rfl⟩, by simpa using hnc⟩
        · exact .inl hk
    case leave k' =>
      obtain rfl := Option.some.inj h
      refine ⟨fun hk => .inl (Finset.mem_of_mem_erase hk), fun hk => ?_⟩
      by_cases hkk : k = k'
      · exact .inr (by rw [hkk])
      · exact .inl (Finset.mem_erase.mpr ⟨hkk, hk⟩)
    case register b => obtain rfl := Option.some.inj h; exact ⟨.inl, .inl⟩
    case unregister => obtain rfl := Option.some.inj h; exact ⟨.inl, .inl⟩
    case newContext reg b =>
      obtain rfl := Option.some.inj h
      rw [newContext]
      split <;> exact ⟨.inl, .inl⟩
    all_goals cases hx

/-- **Exposed code comes from exposed code, or from having entered the section.** -/
theorem exec_exposes (h : exec P o c cyc w x = some e) (k : Key) :
    (∀ y ∈ e.code, y.exposes k = true → x.exposes k = true ∨
      (∃ a, x = .enter k a) ∧ k ∈ e.cyc.inflight) ∧
      ∀ code ∈ e.spawned, ∀ y ∈ code, y.exposes k = false := by
  cases x
  case enter k' a =>
    obtain rfl := Option.some.inj h
    rw [enterInflight]
    split
    · exact ⟨by simp [Instr.exposes], by simp [Effect.pass]⟩
    · refine ⟨fun y hy hk => ?_, by simp [Effect.pass]⟩
      obtain rfl := List.mem_singleton.mp hy
      obtain rfl : k' = k := by simpa [Instr.exposes] using hk
      exact .inr ⟨⟨a, rfl⟩, Finset.mem_insert_self _ _⟩
  case slotWait k' a =>
    simp only [exec, slotWait] at h
    split at h <;> split at h <;> cases h <;>
      exact ⟨by simp [Instr.exposes], by simp [Effect.pass]⟩
  case toSubmitting k' a =>
    obtain rfl := Option.some.inj h
    rw [toSubmitting]
    split
    · exact ⟨by simp [vanished, Instr.exposes], by simp [vanished, Effect.pass]⟩
    · refine ⟨?_, by simp [Effect.pass]⟩
      split <;> simp +contextual [Instr.exposes, or_imp]
  case slotHeld k' a =>
    obtain rfl := Option.some.inj h
    rw [slotHeld]
    refine ⟨?_, by simp [Effect.pass]⟩
    split <;> simp [Instr.exposes]
  case running k' a =>
    obtain rfl := Option.some.inj h
    rw [runSubmit]
    split <;> exact ⟨by simp [Instr.exposes], by simp [Effect.pass]⟩
  case toRetryWait k' a err =>
    obtain rfl := Option.some.inj h
    rw [toRetryWait]
    split
    · exact ⟨by simp [vanished, Instr.exposes], by simp [vanished, Effect.pass]⟩
    · refine ⟨?_, by simp [Effect.pass]⟩
      simp +contextual [Instr.exposes, or_imp]
  case reset todo b prev l st sk =>
    obtain rfl := Option.some.inj h
    cases todo with
    | nil =>
      rw [resetRecords]
      refine ⟨?_, by simp [Effect.pass]⟩
      by_cases hs : sk = [] <;> simp [Instr.exposes, hs]
    | cons ki todo =>
      rw [resetRecords]
      repeat' split
      all_goals exact ⟨by simp [Instr.exposes], by simp [Effect.pass]⟩
  case fanOut todo =>
    obtain rfl := Option.some.inj h
    cases todo <;> simp [fanOut, Effect.pass, Instr.exposes]
  case gateFail ks todo m st =>
    obtain rfl := Option.some.inj h
    cases todo with
    | nil => simp [gateFail, Effect.pass, Instr.exposes]
    | cons r todo => rw [gateFail]; split <;> simp [Effect.pass, Instr.exposes]
  case fire k' =>
    obtain rfl := Option.some.inj h
    rw [fire]
    split <;> simp [Effect.pass, Instr.exposes]
  case announce l =>
    obtain rfl := Option.some.inj h
    rw [announce]
    by_cases hl : l = [] <;> simp [Effect.pass, Instr.exposes, hl]
  case startLaunch b =>
    obtain rfl := Option.some.inj h
    rw [startLaunch]
    split <;> [skip; cases b] <;> simp [Effect.pass, Instr.exposes]
  all_goals
    obtain rfl := Option.some.inj h
    simp only [taskSucceeded, taskFailed, retryCheck, markRetried, scheduleRetry, requestRetry,
      toSubmitFailed, markCancelled, taskCrashed, releaseSlot, leaveInflight, note, count,
      emitProgress, finishIfDone, unregister, dropContext, onRetryRequested, fired, finalizeRetry,
      finalizeRetryWrite, registerCycle, newContext, preSubmitStart, preSubmitRun, preSubmitOk,
      launchCycle, readBlocked, readPrevious, makeTasks, checkFinished, gateReject, finishForced,
      vanished]
    repeat' split
    all_goals simp [Effect.pass, Instr.exposes]

/-- A thread leaves the barriers as they are. -/
theorem exec_barriers (h : exec P o c cyc w x = some e) : e.gate.barriers = w.gate.barriers := by
  rcases hx : x.isGate with _ | _
  · rw [(exec_ungated hx h).gate]
  · cases x
    case enter k a =>
      obtain rfl := Option.some.inj h
      rw [enterInflight]
      split <;> rfl
    case leave k => obtain rfl := Option.some.inj h; rfl
    case register b =>
      obtain rfl := Option.some.inj h
      exact (SubmitGate.register_spec rfl).2.1
    case unregister => obtain rfl := Option.some.inj h; rw [unregister]; split <;> rfl
    case newContext reg b => obtain rfl := Option.some.inj h; rfl
    all_goals cases hx

/-- A registered activity stays until its own cycle ends. -/
theorem exec_activities (h : exec P o c cyc w x = some e) {d : ℕ} (hd : d ∈ w.gate.activities) :
    d ∈ e.gate.activities ∨ x = .unregister ∧ d = c := by
  rcases hx : x.isGate with _ | _
  · rw [(exec_ungated hx h).gate]
    exact .inl hd
  · cases x
    case enter k a =>
      obtain rfl := Option.some.inj h
      rw [enterInflight]
      split <;> exact .inl hd
    case leave k => obtain rfl := Option.some.inj h; exact .inl hd
    case register b =>
      obtain rfl := Option.some.inj h
      obtain ⟨reg, gate, hreg⟩ : ∃ reg gate, w.gate.register c cyc.keys.toFinset = (reg, gate) :=
        ⟨_, _, rfl⟩
      left
      change d ∈ (w.gate.register c cyc.keys.toFinset).2.activities
      rcases (SubmitGate.register_spec hreg).2.2 with ⟨-, hact⟩ | ⟨-, hsame, -⟩
      · rw [hreg, hact]
        exact List.mem_append_left _ hd
      · rw [hreg, hsame]
        exact hd
    case unregister =>
      obtain rfl := Option.some.inj h
      rw [unregister]
      by_cases hdc : d = c
      · exact .inr ⟨rfl, hdc⟩
      · refine .inl ?_
        split
        · exact (List.mem_erase_of_ne hdc).mpr hd
        · exact hd
    case newContext reg b => obtain rfl := Option.some.inj h; exact .inl hd
    all_goals cases hx

end Exec

end Lsfmgr.Submit
