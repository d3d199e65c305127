import Mathlib
import Lsfmgr.Submit.ExactlyOnce

/-!
# Submit/Current — at most the last cycle is unfinished

A submission is refused while a cycle is active, and the context of a cycle is dropped only after
the cycle has finished.  So an unfinished cycle is the one the context table knows, and the last
one.
-/

namespace Lsfmgr.Submit

open Machinery

/-- `_drop_ctx` -/
def Instr.isEnding : Instr → Bool
  | unregister | dropContext => true
  | _ => false

section Exec

variable {P : Params} {o : Oracle} {c : ℕ} {cyc : Cycle} {w : Shared} {x : Instr} {e : Effect}

/-- A finished cycle stays finished. -/
theorem exec_finished (hf : cyc.finished = true) (h : exec P o c cyc w x = some e) :
    e.cyc.finished = true := by
  rcases hq : x.isQuiet with _ | _
  · cases x
    case count ks out ch =>
      obtain rfl := Option.some.inj h
      rw [count]
      split <;> [exact hf; cases out <;> exact hf]
    case finishIfDone b => obtain rfl := Option.some.inj h; simp [finishIfDone, hf, Effect.pass]
    case finishForced ks f em =>
      obtain rfl := Option.some.inj h; simp [finishForced, hf, Effect.pass]
    case schedule k a => obtain rfl := Option.some.inj h; exact hf
    case fire k =>
      obtain rfl := Option.some.inj h
      rw [fire]
      split
      case h_1 => exact hf
      case h_2 hpop =>
        have := congrArg Cycle.finished (Cycle.popRetry_spec hpop).2.2.2
        exact this.trans hf
    case dropContext => obtain rfl := Option.some.inj h; exact hf
    all_goals cases hq
  · have : e.cyc.finished = cyc.finished := by
      have := (exec_quiet hq h).counters
      simp only [Prod.mk.injEq] at this
      exact this.2.2.2.2
    rw [this, hf]

/-- **The end of a cycle is called for only once it has finished.** -/
theorem exec_ending (h : exec P o c cyc w x = some e) :
    (∀ y ∈ e.code, y.isEnding = true → e.cyc.finished = true) ∧
      ∀ code ∈ e.spawned, ∀ y ∈ code, y.isEnding = false := by
  cases x
  case slotWait k a =>
    simp only [exec, slotWait] at h
    split at h <;> split at h <;> cases h <;>
      exact ⟨by simp [Instr.isEnding], by simp [Effect.pass]⟩
  case toSubmitting k a =>
    obtain rfl := Option.some.inj h
    rw [toSubmitting]
    split
    · exact ⟨by simp [vanished, Instr.isEnding], by simp [vanished, Effect.pass]⟩
    · refine ⟨?_, by simp [Effect.pass]⟩
      split <;> simp +contextual [Instr.isEnding, or_imp]
  case toRetryWait k a err =>
    obtain rfl := Option.some.inj h
    rw [toRetryWait]
    split
    · exact ⟨by simp [vanished, Instr.isEnding], by simp [vanished, Effect.pass]⟩
    · refine ⟨?_, by simp [Effect.pass]⟩
      simp +contextual [Instr.isEnding, or_imp]
  case finishIfDone b =>
    obtain rfl := Option.some.inj h
    rw [finishIfDone]
    split
    · exact ⟨by simp [Effect.pass], by simp [Effect.pass]⟩
    · exact ⟨fun _ _ _ => rfl, by simp [Effect.pass]⟩
  case finishForced ks f em =>
    obtain rfl := Option.some.inj h
    rw [finishForced]
    split
    case isTrue hf => exact ⟨fun _ _ _ => hf, by simp [Effect.pass]⟩
    case isFalse => exact ⟨fun _ _ _ => by cases f <;> rfl, by simp [Effect.pass]⟩
  case reset todo b prev l st sk =>
    obtain rfl := Option.some.inj h
    cases todo with
    | nil =>
      rw [resetRecords]
      refine ⟨?_, by simp [Effect.pass]⟩
      by_cases hs : sk = [] <;> simp [Instr.isEnding, hs]
    | cons ki todo =>
      rw [resetRecords]
      repeat' split
      all_goals simp [Effect.pass, Instr.isEnding]
  case fanOut todo =>
    obtain rfl := Option.some.inj h
    cases todo <;> simp [fanOut, Effect.pass, Instr.isEnding]
  case gateFail ks todo m st =>
    obtain rfl := Option.some.inj h
    cases todo with
    | nil => simp [gateFail, Effect.pass, Instr.isEnding]
    | cons r todo => rw [gateFail]; split <;> simp [Effect.pass, Instr.isEnding]
  case fire k =>
    obtain rfl := Option.some.inj h
    rw [fire]
    split <;> simp [Effect.pass, Instr.isEnding]
  case announce l =>
    obtain rfl := Option.some.inj h
    rw [announce]
    by_cases hl : l = [] <;> simp [Effect.pass, Instr.isEnding, hl]
  case startLaunch b =>
    obtain rfl := Option.some.inj h
    rw [startLaunch]
    split <;> [skip; cases b] <;> simp [Effect.pass, Instr.isEnding]
  all_goals
    obtain rfl := Option.some.inj h
    simp only [enterInflight, slotHeld, runSubmit, taskSucceeded, taskFailed, retryCheck,
      markRetried, scheduleRetry, requestRetry, toSubmitFailed, markCancelled, taskCrashed,
      releaseSlot, leaveInflight, note, count, emitProgress, unregister, dropContext,
      onRetryRequested, fired, finalizeRetry, finalizeRetryWrite, registerCycle, newContext,
      preSubmitStart, preSubmitRun, preSubmitOk, launchCycle, readBlocked, readPrevious, makeTasks,
      checkFinished, gateReject, vanished]
    repeat' split
    all_goals simp [Effect.pass, Instr.isEnding]

/-- Only the end of a cycle touches the context table, and then it drops its own entry. -/
theorem exec_contexts (h : exec P o c cyc w x = some e) :
    e.contexts = w.contexts ∨ x.isEnding = true ∧ e.cyc = cyc ∧
      e.contexts = if w.contexts = some c then none else w.contexts := by
  rcases hq : x.isQuiet with _ | _
  · cases x
    case count ks out ch =>
      obtain rfl := Option.some.inj h
      rw [count]
      split <;> exact .inl rfl
    case finishIfDone b =>
      obtain rfl := Option.some.inj h; rw [finishIfDone]; split <;> exact .inl rfl
    case finishForced ks f em =>
      obtain rfl := Option.some.inj h; rw [finishForced]; split <;> exact .inl rfl
    case schedule k a => obtain rfl := Option.some.inj h; exact .inl rfl
    case fire k => obtain rfl := Option.some.inj h; rw [fire]; split <;> exact .inl rfl
    case dropContext => obtain rfl := Option.some.inj h; exact .inr ⟨rfl, rfl, rfl⟩
    all_goals cases hq
  · exact .inl (exec_quiet hq h).contexts

end Exec

/-- Which cycle is the current one. -/
structure Current (w : Shared) (ts : List Thread) : Prop where
  /-- A cycle is dropped only when it has finished. -/
  ended : ∀ t ∈ ts, ∀ cyc, w.cycles[t.cycle]? = some cyc → ∀ y ∈ t.code, y.isEnding = true →
    cyc.finished = true
  /-- A cycle that has not finished is the one in the context table, and the last. -/
  current : ∀ c cyc, w.cycles[c]? = some cyc → cyc.finished = false →
    w.contexts = some c ∧ c + 1 = w.cycles.length

namespace Current

variable {P : Params} {w w' : Shared} {ts ts' : List Thread} {ran : Option ℕ}

/-- While a cycle is unfinished the jobset is active. -/
theorem isActive (C : Current w ts) {c : ℕ} {cyc : Cycle} (hc : w.cycles[c]? = some cyc)
    (hf : cyc.finished = false) : w.isActive = true := by
  simp [Shared.isActive, (C.current c cyc hc hf).1, hc, hf]

/-- Replacing a cycle by one that is finished if it was, with threads that end none. -/
theorem setCycle (C : Current w ts) {c : ℕ} {cyc cyc' : Cycle} (hc : w.cycles[c]? = some cyc)
    (hf : cyc'.finished = cyc.finished)
    (hts : ∀ t ∈ ts', t ∈ ts ∨ ∀ y ∈ t.code, y.isEnding = false) :
    Current (w.setCycle c cyc') ts' := by
  refine ⟨fun t ht cyd hd y hy hend => ?_, fun d cyd hd hfd => ?_⟩
  · rcases hts t ht with ht | hno
    · rw [Shared.cycles_setCycle hc] at hd
      split at hd
      case isTrue heq =>
        obtain rfl := Option.some.inj hd
        rw [hf]
        exact C.ended t ht cyc (heq ▸ hc) y hy hend
      case isFalse => exact C.ended t ht cyd hd y hy hend
    · simp [hno y hy] at hend
  · rw [Shared.cycles_setCycle hc] at hd
    simp only [Shared.setCycle, List.length_set]
    split at hd
    case isTrue heq =>
      subst heq
      obtain rfl := Option.some.inj hd
      exact C.current d cyc hc (hf ▸ hfd)
    case isFalse => exact C.current d cyd hd hfd

theorem step (C : Current w ts) (L : Ledgered w ts) (h : Stepped P w ts ran w' ts') :
    Current w' ts' := by
  cases h with
  | @thread i o t x rest cyc e hi hcode hcyc hexec =>
    obtain ⟨c, code⟩ := t
    obtain rfl : code = x :: rest := hcode
    have hmem := List.mem_of_getElem? hi
    have hlt : c < w.cycles.length := L.known _ hmem
    obtain ⟨hend, hspawned⟩ := exec_ending hexec
    have hmono := fun hf => exec_finished hf hexec
    have hold : ∀ y ∈ x :: rest, y.isEnding = true → cyc.finished = true :=
      C.ended _ hmem cyc hcyc
    have hget : ∀ d, (w.apply c e).cycles[d]? = if c = d then some e.cyc else w.cycles[d]? := by
      intro d
      simp only [Shared.apply, List.getElem?_set, hlt, if_true]
    refine ⟨fun t ht cyd hd y hy hyend => ?_, fun d cyd hd hfd => ?_⟩
    · rw [hget] at hd
      rcases mem_replaceAt ht with ht | ht
      · split at hd
        case isTrue heq =>
          obtain rfl := Option.some.inj hd
          exact hmono (C.ended t ht cyc (heq ▸ hcyc) y hy hyend)
        case isFalse => exact C.ended t ht cyd hd y hy hyend
      · rcases List.mem_cons.mp ht with rfl | ht
        · simp only [if_true] at hd
          obtain rfl := Option.some.inj hd
          rcases List.mem_append.mp hy with hy | hy
          · exact hend y hy hyend
          · exact hmono (hold y (List.mem_cons_of_mem _ hy) hyend)
        · obtain ⟨code, hcode, rfl⟩ := List.mem_map.mp ht
          simp [hspawned code hcode y hy] at hyend
    · rw [hget] at hd
      have hlen : (w.apply c e).cycles.length = w.cycles.length := by simp [Shared.apply]
      rw [hlen]
      -- the unfinished cycle was unfinished before
      obtain ⟨cyd', hd', hfd'⟩ : ∃ cyd', w.cycles[d]? = some cyd' ∧ cyd'.finished = false := by
        split at hd
        case isTrue heq =>
          subst heq
          obtain rfl := Option.some.inj hd
          exact ⟨cyc, hcyc, by
            rcases hf : cyc.finished with _ | _
            · rfl
            · exact (hmono hf).symm.trans hfd⟩
        case isFalse => exact ⟨cyd, hd, hfd⟩
      obtain ⟨hctx, hlast⟩ := C.current d cyd' hd' hfd'
      refine ⟨?_, hlast⟩
      rcases exec_contexts hexec with hsame | ⟨hx, hecyc, hdrop⟩
      · exact hsame.trans hctx
      · change e.contexts = some d
        have hne : c ≠ d := by
          rintro rfl
          obtain rfl := Option.some.inj (hcyc.symm.trans hd')
          simp [hold x List.mem_cons_self hx] at hfd'
        rw [hdrop, hctx, if_neg (by simpa using hne.symm)]
  | @submit cyc pre hact _ _ =>
    refine ⟨fun t ht cyd hd y hy hend => ?_, fun d cyd hd hfd => ?_⟩
    · rcases List.mem_append.mp ht with ht | ht
      · have hlt := L.known t ht
        rw [List.getElem?_append_left hlt] at hd
        exact C.ended t ht cyd hd y hy hend
      · obtain rfl := List.mem_singleton.mp ht
        obtain rfl := List.mem_singleton.mp hy
        cases hend
    · rcases Nat.lt_or_ge d w.cycles.length with hlt | hge
      · rw [List.getElem?_append_left hlt] at hd
        exact absurd (C.isActive hd hfd) (by simp [hact])
      · have hlt := (List.getElem?_eq_some_iff.mp hd).1
        rw [List.length_append, List.length_singleton] at hlt ⊢
        obtain rfl : d = w.cycles.length := by omega
        exact ⟨rfl, rfl⟩
  | @cancel c cyc scope hc => exact C.setCycle hc (by cases scope <;> rfl) fun t ht => .inl ht
  | @abort c cyc scope how reason hc =>
    obtain ⟨-, -, pend, settled, heq⟩ := Cycle.popRetries_spec how (cyc.abortedKeys scope) cyc
    refine C.setCycle hc (by rw [heq]) fun t ht => ?_
    refine (List.mem_append.mp ht).imp_right fun ht y hy => ?_
    obtain rfl := List.mem_singleton.mp ht
    obtain ⟨k, -, rfl⟩ := List.mem_map.mp hy
    rfl
  | write => exact ⟨C.ended, C.current⟩
  | flags => exact ⟨C.ended, C.current⟩

end Current

theorem current_of_reachable {P : Params} {C : State → Act → Prop} {s : State}
    (h : (system P).ReachableUnder C s) : Current s.shared s.threads :=
  invariant_of_stepped (fun w hw => ⟨by simp, fun c cyc hc => by simp [hw.cycles] at hc⟩)
    (fun _ _ _ _ _ L C hs => C.step L hs) h

end Lsfmgr.Submit
