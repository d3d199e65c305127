import Mathlib
import Lsfmgr.Submit.Units

/-!
# Submit/Accounting — every unit of a cycle is counted exactly once

`Accounts` is the ledger of one cycle: its units are counted, held or pending, the counters agree
with what was counted, and a finished cycle has counted everything.
-/

namespace Lsfmgr.Submit

open Machinery

/-! ## What one instruction does to the counters -/

/-- A signal that ends the cycle for its observers. -/
def Signal.report? : Signal → Option SubmitReport
  | finished rep => some rep
  | _ => none

/-- The instructions that touch a counter, the retry ledger or the context table. -/
def Instr.isQuiet : Instr → Bool
  | count .. | finishIfDone _ | finishForced .. | schedule .. | fire _ | dropContext => false
  | _ => true

/-- The effect leaves the counters, the retry ledger and the context table alone, and does not end
the cycle. -/
structure Effect.Quiet (cyc : Cycle) (w : Shared) (e : Effect) : Prop where
  counters : (e.cyc.done, e.cyc.succeeded, e.cyc.failed, e.cyc.cancelled, e.cyc.finished)
    = (cyc.done, cyc.succeeded, cyc.failed, cyc.cancelled, cyc.finished)
  counted : e.cyc.ledger.counted = cyc.ledger.counted
  pending : e.cyc.pendingRetries = cyc.pendingRetries
  registered : e.cyc.ledger.registered = cyc.ledger.registered
  settled : e.cyc.ledger.settled = cyc.ledger.settled
  contexts : e.contexts = w.contexts
  nextSerial : e.nextSerial = w.nextSerial
  reports : e.signals.filterMap Signal.report? = []

section Exec

variable {P : Params} {o : Oracle} {c : ℕ} {cyc : Cycle} {w : Shared} {x : Instr} {e : Effect}

theorem reports_batch (rs : List JobRecord) : (batch rs).filterMap Signal.report? = [] := by
  rw [batch]; split <;> rfl

theorem exec_quiet (hq : x.isQuiet = true) (h : exec P o c cyc w x = some e) :
    e.Quiet cyc w := by
  cases x
  case slotWait k a =>
    simp only [exec, slotWait] at h
    split at h <;> split at h <;> cases h <;> exact ⟨rfl, rfl, rfl, rfl, rfl, rfl, rfl, rfl⟩
  case reset todo b prev l st sk =>
    obtain rfl := Option.some.inj h
    cases todo with
    | nil =>
      rw [resetRecords]
      refine ⟨rfl, rfl, rfl, rfl, rfl, rfl, rfl, ?_⟩
      by_cases hs : st = [] <;> simp [hs, Signal.report?]
    | cons ki todo =>
      rw [resetRecords]
      repeat' split
      all_goals exact ⟨rfl, rfl, rfl, rfl, rfl, rfl, rfl, rfl⟩
  case gateFail ks todo m st =>
    obtain rfl := Option.some.inj h
    cases todo with
    | nil =>
      refine ⟨rfl, rfl, rfl, rfl, rfl, rfl, rfl, ?_⟩
      change List.filterMap _ (batch st ++ _) = []
      rw [List.filterMap_append, reports_batch]
      rfl
    | cons r todo =>
      rw [gateFail]
      split <;> exact ⟨rfl, rfl, rfl, rfl, rfl, rfl, rfl, rfl⟩
  case emitProgress b =>
    obtain rfl := Option.some.inj h
    rw [emitProgress]
    split
    case isTrue => exact ⟨rfl, rfl, rfl, rfl, rfl, rfl, rfl, rfl⟩
    case isFalse =>
      refine ⟨rfl, rfl, rfl, rfl, rfl, rfl, rfl, ?_⟩
      rw [List.filterMap_append, reports_batch]
      cases b <;> rfl
  case announce l =>
    obtain rfl := Option.some.inj h
    refine ⟨rfl, rfl, rfl, rfl, rfl, rfl, rfl, ?_⟩
    exact reports_batch l
  case newContext reg b =>
    obtain rfl := Option.some.inj h
    rw [newContext]
    split <;> exact ⟨rfl, rfl, rfl, rfl, rfl, rfl, rfl, rfl⟩
  case fanOut todo =>
    obtain rfl := Option.some.inj h
    cases todo <;> exact ⟨rfl, rfl, rfl, rfl, rfl, rfl, rfl, rfl⟩
  case count => cases hq
  case finishIfDone => cases hq
  case finishForced => cases hq
  case schedule => cases hq
  case fire => cases hq
  case dropContext => cases hq
  -- the others write at most the store, the gate and fields of the cycle not named above
  all_goals
    obtain rfl := Option.some.inj h
    simp only [enterInflight, toSubmitting, slotHeld, runSubmit, taskSucceeded, taskFailed,
      retryCheck, toRetryWait, markRetried, requestRetry, toSubmitFailed, markCancelled,
      taskCrashed, releaseSlot, leaveInflight, note, unregister, onRetryRequested, fired,
      finalizeRetry, finalizeRetryWrite, registerCycle, startLaunch, preSubmitStart, preSubmitRun,
      preSubmitOk, launchCycle, readBlocked, readPrevious, makeTasks, checkFinished, gateReject,
      vanished]
    repeat' split
    all_goals exact ⟨rfl, rfl, rfl, rfl, rfl, rfl, rfl, rfl⟩

/-- What is counted stays counted. -/
theorem exec_counted (h : exec P o c cyc w x = some e) :
    ∃ l, e.cyc.ledger.counted = cyc.ledger.counted ++ l := by
  rcases hq : x.isQuiet with _ | _
  · cases x
    case count ks out ch =>
      obtain rfl := Option.some.inj h
      rw [count]
      split <;> [exact ⟨[], by simp [Effect.pass]⟩; exact ⟨ks, by cases out <;> rfl⟩]
    case finishIfDone force =>
      obtain rfl := Option.some.inj h
      rw [finishIfDone]
      split <;> exact ⟨[], by simp [Effect.pass]⟩
    case finishForced ks failed emit =>
      obtain rfl := Option.some.inj h
      rw [finishForced]
      split <;> [exact ⟨[], by simp [Effect.pass]⟩; exact ⟨ks, by cases failed <;> rfl⟩]
    case schedule k a => obtain rfl := Option.some.inj h; exact ⟨[], (List.append_nil _).symm⟩
    case fire k =>
      obtain rfl := Option.some.inj h
      rw [fire]
      split
      case h_1 => exact ⟨[], by simp [Effect.pass]⟩
      case h_2 hpop => exact ⟨[], by simp [Effect.pass, (Cycle.popRetry_spec hpop).2.2.1]⟩
    case dropContext => obtain rfl := Option.some.inj h; exact ⟨[], (List.append_nil _).symm⟩
    all_goals cases hq
  · exact ⟨[], by simp [(exec_quiet hq h).counted]⟩

/-- What the counters of a cycle say: they agree with the units counted, and a finished cycle has
counted everything. -/
structure Counters (cyc : Cycle) : Prop where
  done : cyc.done = cyc.ledger.counted.length
  split : cyc.succeeded + cyc.failed + cyc.cancelled = cyc.done
  finished : cyc.finished = true → cyc.done = cyc.total

/-- A report adds up. -/
def SubmitReport.Balanced (rep : SubmitReport) (total : ℕ) : Prop :=
  rep.total = total ∧ rep.succeeded + rep.failed + rep.cancelled = total

theorem Counters.balanced_report (h : Counters cyc) (hd : cyc.done = cyc.total) :
    cyc.report.Balanced cyc.total := ⟨rfl, h.split.trans hd⟩

/-- The instructions that end a cycle whatever is left to count. -/
def Instr.isForced : Instr → Bool
  | finishIfDone true | finishForced .. => true
  | _ => false

theorem Instr.isLaunch_of_isForced (h : x.isForced = true) : x.isLaunch = true := by
  cases x with
  | finishIfDone b => cases b <;> simp_all [isForced, isLaunch]
  | _ => simp_all [isForced, isLaunch]

theorem not_launched_of_isForced {rest : List Instr} (h : x.isForced = true) :
    ¬Launched (x :: rest) := fun hl => by
  have := hl x List.mem_cons_self
  simp [Instr.isLaunch_of_isForced h] at this

/-- **An instruction keeps the counters right**, ends the cycle at most once, and only with a report
that adds up — provided a forced ending holds every unit that is left. -/
theorem exec_counters (hc : Counters cyc) (hle : cyc.done ≤ cyc.total)
    (hfin : cyc.finished = true → x.units cyc.keys = 0)
    (hforced : x.isForced = true → cyc.done + (x.units cyc.keys).card = cyc.total)
    (h : exec P o c cyc w x = some e) :
    Counters e.cyc ∧
      (e.signals.filterMap Signal.report?).length + cyc.finished.toNat ≤ e.cyc.finished.toNat ∧
      ∀ rep ∈ e.signals.filterMap Signal.report?, rep.Balanced cyc.total := by
  have hkeyed := exec_keyed h
  rcases hq : x.isQuiet with _ | _
  · cases x
    case count ks out ch =>
      obtain rfl := Option.some.inj h
      rw [count]
      split
      case isTrue => exact ⟨hc, by simp [Effect.pass], by simp [Effect.pass]⟩
      case isFalse hks =>
        have hnf : cyc.finished = false := by
          by_contra hf
          exact hks (by simpa [Instr.units] using hfin (by simpa using hf))
        refine ⟨⟨?_, ?_, fun hf => ?_⟩, ?_, by simp [Effect.pass]⟩
        · cases out <;> simp [Cycle.addDone, hc.done]
        · have := hc.split
          cases out <;> simp only [Cycle.addDone] <;> omega
        · cases out <;> simp [Cycle.addDone, hnf] at hf
        · simp [Effect.pass, hnf]
    case finishIfDone force =>
      obtain rfl := Option.some.inj h
      rw [finishIfDone]
      split
      case isTrue => exact ⟨hc, by simp [Effect.pass], by simp [Effect.pass]⟩
      case isFalse hcond =>
        have hnf : cyc.finished = false := by
          by_contra hf
          exact hcond (.inl (by simpa using hf))
        have hd : cyc.done = cyc.total := by
          cases force
          · have : ¬cyc.done < cyc.total := fun hlt => hcond (.inr ⟨hlt, by simp⟩)
            omega
          · simpa [Instr.units] using hforced rfl
        have hrep : ((if cyc.total ≤ cyc.done then [Signal.progress cyc.total cyc.total] else [])
            ++ batch cyc.changedBuffer ++ [Signal.finished cyc.report]).filterMap Signal.report?
            = [cyc.report] := by
          rw [List.filterMap_append, List.filterMap_append, reports_batch]
          split <;> rfl
        refine ⟨⟨hc.done, hc.split, fun _ => hd⟩, ?_, ?_⟩
        · rw [hrep, hnf]
          rfl
        · rw [hrep]
          rintro rep hmem
          obtain rfl := List.mem_singleton.mp hmem
          exact hc.balanced_report hd
    case finishForced ks failed emit =>
      obtain rfl := Option.some.inj h
      rw [finishForced]
      split
      case isTrue => exact ⟨hc, by simp [Effect.pass], by simp [Effect.pass]⟩
      case isFalse hcond =>
        have hnf : cyc.finished = false := by simpa using hcond
        have hall : cyc.done + ks.length = cyc.total := by simpa [Instr.units] using hforced rfl
        have hcs : Counters (cyc.forceDone ks failed) ∧
            (cyc.forceDone ks failed).done = cyc.total ∧
            (cyc.forceDone ks failed).finished = true ∧
            (cyc.forceDone ks failed).total = cyc.total := by
          have h₁ := hc.split
          have h₂ := hc.done
          cases failed <;>
          · refine ⟨⟨?_, ?_, fun _ => rfl⟩, rfl, rfl, rfl⟩
            · simp only [Cycle.forceDone, List.length_append, if_true, Bool.false_eq_true, if_false]
              omega
            · simp only [Cycle.forceDone, if_true, Bool.false_eq_true, if_false]
              omega
        obtain ⟨hcs, hd, hf, ht⟩ := hcs
        refine ⟨hcs, ?_, ?_⟩
        · rw [hnf, hf]
          cases emit <;> simp [Signal.report?]
        · cases emit
          · simp
          · intro rep hmem
            obtain rfl : rep = (cyc.forceDone ks failed).report := by
              simpa [Signal.report?] using hmem
            have := hcs.balanced_report (hd.trans ht.symm)
            rwa [ht] at this
    case schedule k a =>
      obtain rfl := Option.some.inj h
      exact ⟨⟨hc.done, hc.split, hc.finished⟩, by simp [scheduleRetry, Cycle.addRetry, Effect.pass],
        by simp [scheduleRetry, Effect.pass]⟩
    case fire k =>
      obtain rfl := Option.some.inj h
      rw [fire]
      split
      case h_1 => exact ⟨hc, by simp [Effect.pass], by simp [Effect.pass]⟩
      case h_2 entry cyc' hpop =>
        obtain ⟨-, -, hl, he⟩ := Cycle.popRetry_spec hpop
        have hcs : Counters cyc' := by
          rw [he, hl]
          exact ⟨hc.done, hc.split, hc.finished⟩
        refine ⟨hcs, ?_, by simp [Effect.pass]⟩
        have : cyc'.finished = cyc.finished := by rw [he]
        simp [Effect.pass, this]
    case dropContext =>
      obtain rfl := Option.some.inj h
      exact ⟨hc, by simp [dropContext, Effect.pass], by simp [dropContext, Effect.pass]⟩
    all_goals cases hq
  · have q := exec_quiet hq h
    obtain ⟨h₁, h₂, h₃, h₄, h₅⟩ : e.cyc.done = cyc.done ∧ e.cyc.succeeded = cyc.succeeded ∧
        e.cyc.failed = cyc.failed ∧ e.cyc.cancelled = cyc.cancelled ∧
        e.cyc.finished = cyc.finished := by simpa using q.counters
    have ht : e.cyc.total = cyc.total := congrArg List.length hkeyed
    refine ⟨⟨?_, ?_, fun hf => ?_⟩, ?_, ?_⟩
    · rw [h₁, q.counted, hc.done]
    · rw [h₁, h₂, h₃, h₄, hc.split]
    · rw [h₁, ht]; exact hc.finished (h₅ ▸ hf)
    · rw [q.reports, h₅]; simp
    · rw [q.reports]; simp

/-- What the retry ledger of a cycle says: a registered entry waits, or was settled once. -/
structure Serials (cyc : Cycle) (nextSerial : ℕ) : Prop where
  balance : (cyc.ledger.settled.map Prod.fst : Multiset ℕ) + cyc.pendingSerials
    = cyc.ledger.registered
  nodup : cyc.ledger.registered.Nodup
  lt : ∀ n ∈ cyc.ledger.registered, n < nextSerial

theorem Serials.mono {n n' : ℕ} (hs : Serials cyc n) (hn : n ≤ n') : Serials cyc n' :=
  ⟨hs.balance, hs.nodup, fun m hm => (hs.lt m hm).trans_le hn⟩

/-- Popping an entry settles it. -/
theorem Serials.popRetry {n : ℕ} (hs : Serials cyc n) {k : Key} {how : Settlement}
    {entry : PendingRetry} {cyc' : Cycle} (hpop : cyc.popRetry k how = some (entry, cyc')) :
    Serials cyc' n := by
  obtain ⟨-, hser, hl, -⟩ := Cycle.popRetry_spec hpop
  refine ⟨?_, by rw [hl]; exact hs.nodup, by rw [hl]; exact hs.lt⟩
  rw [hl, ← hs.balance, hser]
  simp only [List.map_append, List.map_cons, List.map_nil, ← Multiset.coe_add,
    Multiset.coe_singleton]
  abel

/-- **Popping the entries of a list of keys** takes out the keys it returns, settles each entry, and
changes nothing else. -/
theorem Cycle.popRetries_spec (how : Settlement) :
    ∀ (ks : List Key) (cyc : Cycle),
      cyc.pendingKeys = ((cyc.popRetries how ks).1 : Multiset Key)
          + (cyc.popRetries how ks).2.pendingKeys ∧
        (∀ n, Serials cyc n → Serials (cyc.popRetries how ks).2 n) ∧
        ∃ pendingRetries settled, (cyc.popRetries how ks).2
          = { cyc with pendingRetries, ledger := { cyc.ledger with settled } }
  | [], cyc => ⟨by simp [popRetries], fun _ h => h, _, _, rfl⟩
  | k :: ks, cyc => by
      rw [popRetries]
      split
      case h_1 => exact popRetries_spec how ks cyc
      case h_2 entry cyc' hpop =>
        obtain ⟨hkeys, -, hled, heq⟩ := popRetry_spec hpop
        obtain ⟨ih₁, ih₂, pend, settled, ih₃⟩ := popRetries_spec how ks cyc'
        refine ⟨?_, fun n hs => ih₂ n (hs.popRetry hpop), pend, settled, ?_⟩
        · rw [hkeys, ih₁, ← add_assoc, ← Multiset.cons_coe, ← Multiset.singleton_add]
        · rw [ih₃, heq, hled]

/-- **An instruction registers a retry entry with a new number, or settles one by popping it.** -/
theorem exec_serials (hs : Serials cyc w.nextSerial)
    (hpend : ∀ k ∈ x.units cyc.keys, k ∉ cyc.pendingKeys) (h : exec P o c cyc w x = some e) :
    Serials e.cyc e.nextSerial ∧ w.nextSerial ≤ e.nextSerial := by
  rcases hq : x.isQuiet with _ | _
  · cases x
    case schedule k a =>
      obtain rfl := Option.some.inj h
      have hk := Cycle.addRetry_spec (a := a) (n := w.nextSerial) (hpend k (by simp [Instr.units]))
      refine ⟨⟨?_, ?_, ?_⟩, Nat.le_succ _⟩
      · change (cyc.ledger.settled.map Prod.fst : Multiset ℕ)
          + (cyc.addRetry k a w.nextSerial).pendingSerials = _
        rw [hk.2, ← add_assoc, hs.balance]
        simp [scheduleRetry, Cycle.addRetry, ← Multiset.coe_add]
      · refine List.nodup_append.mpr ⟨hs.nodup, by simp, fun a ha b hb => ?_⟩
        obtain rfl := List.mem_singleton.mp hb
        exact (hs.lt a ha).ne
      · intro n hn
        rcases List.mem_append.mp hn with hn | hn
        · exact Nat.lt_succ_of_lt (hs.lt n hn)
        · exact List.mem_singleton.mp hn ▸ Nat.lt_succ_self _
    case fire k =>
      obtain rfl := Option.some.inj h
      rw [fire]
      split
      case h_1 => exact ⟨hs, le_rfl⟩
      case h_2 hpop => exact ⟨hs.popRetry hpop, le_rfl⟩
    case count ks out ch =>
      obtain rfl := Option.some.inj h
      rw [count]
      split <;> [exact ⟨hs, le_rfl⟩; (cases out <;> exact ⟨⟨hs.1, hs.2, hs.3⟩, le_rfl⟩)]
    case finishIfDone b =>
      obtain rfl := Option.some.inj h
      rw [finishIfDone]
      split <;> exact ⟨⟨hs.1, hs.2, hs.3⟩, le_rfl⟩
    case finishForced ks failed emit =>
      obtain rfl := Option.some.inj h
      rw [finishForced]
      split <;> [exact ⟨hs, le_rfl⟩; (cases failed <;> exact ⟨⟨hs.1, hs.2, hs.3⟩, le_rfl⟩)]
    case dropContext =>
      obtain rfl := Option.some.inj h
      exact ⟨hs, le_rfl⟩
    all_goals cases hq
  · have q := exec_quiet hq h
    refine ⟨⟨?_, q.registered ▸ hs.nodup, ?_⟩, q.nextSerial.ge⟩
    · rw [q.settled, q.registered, Cycle.pendingSerials, q.pending]
      exact hs.balance
    · rw [q.registered, q.nextSerial]
      exact hs.lt

end Exec

end Lsfmgr.Submit
