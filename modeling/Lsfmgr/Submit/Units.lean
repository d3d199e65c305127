import Mathlib
import Lsfmgr.Submit.System

/-!
# Submit/Units — the units of a cycle and who holds them

Every key of a cycle is one unit of work.  A unit is counted, or held by an instruction some thread
has still to run, or held by a retry entry.  An instruction hands its unit on — to what its thread
runs next, to a thread it spawns, to the retry ledger — or counts it; it never makes one and never
drops one (`exec_units`).

While a cycle is being launched all of this is the business of one thread (`LaunchShaped`), which is
why the two forced endings may count whatever is not counted yet.
-/

namespace Lsfmgr.Submit

open Machinery

namespace Instr

/-- The units this instruction of a cycle with keys `all` has still to see counted. -/
def units (all : List Key) : Instr → Multiset Key
  | enter k _ | toSubmitting k _ | slotWait k _ | slotHeld k _ | running k _ | succeeded k _
  | failed k _ _ | retryCheck k _ _ | toRetryWait k _ _ | toSubmitFailed k _ _ | cancelled k
  | crashed k _ | schedule k _ | fired k _ | giveUp k _ | giveUpWrite k _ => {k}
  | count ks _ _ | finishForced ks _ _ | gateFail ks _ _ _ => ks
  | register _ | newContext _ _ | startLaunch _ | preSubmitStart | preSubmitRun |
      preSubmitOk | launch
  | readBlocked | readPrevious _ | gateReject _ => all
  | reset todo _ _ launched _ skipped =>
    ↑(todo.map Prod.fst) + ↑(launched.map (·.jobKey)) + ↑skipped
  | makeTasks launched | checkFinished launched | announce launched | fanOut launched =>
    ↑(launched.map (·.jobKey))
  | retried _ | requestRetry _ | releaseSlot | leave _ | note _ | emitProgress _ | finishIfDone _
  | unregister | dropContext | onRetryRequested _ | fire _ => 0

/-- Launch code: from the registration to the point where the tasks start or the cycle is ended
without them. -/
def isLaunch : Instr → Bool
  | register _ | newContext _ _ | startLaunch _ | preSubmitStart | preSubmitRun |
      preSubmitOk | launch
  | readBlocked | readPrevious _ | reset .. | makeTasks _ | checkFinished _ | announce _
  | gateReject _ | gateFail .. | finishForced .. | finishIfDone true => true
  | _ => false

/-- Counting and notifying. -/
def isBook : Instr → Bool
  | count .. | note _ | emitProgress _ | finishIfDone false | unregister | dropContext => true
  | _ => false

theorem not_isLaunch_of_isBook {x : Instr} (h : x.isBook = true) : x.isLaunch = false := by
  cases x with
  | finishIfDone b => cases b <;> simp_all [isBook, isLaunch]
  | _ => simp_all [isBook, isLaunch]

end Instr

/-- The units the code of a thread has still to see counted. -/
def codeUnits (all : List Key) (code : List Instr) : Multiset Key :=
  (code.map (Instr.units all)).sum

@[simp] theorem codeUnits_nil (all : List Key) : codeUnits all [] = 0 := rfl

@[simp] theorem codeUnits_cons (all : List Key) (x : Instr) (code : List Instr) :
    codeUnits all (x :: code) = x.units all + codeUnits all code := by simp [codeUnits]

@[simp] theorem codeUnits_append (all : List Key) (a b : List Instr) :
    codeUnits all (a ++ b) = codeUnits all a + codeUnits all b := by simp [codeUnits]

theorem mem_codeUnits {all : List Key} {code : List Instr} {y : Instr} {k : Key} (hy : y ∈ code)
    (hk : k ∈ y.units all) : k ∈ codeUnits all code := by
  induction code with
  | nil => cases hy
  | cons x code ih =>
    rw [codeUnits_cons, Multiset.mem_add]
    rcases List.mem_cons.mp hy with rfl | hy
    · exact .inl hk
    · exact .inr (ih hy)

/-- What publishes the records of a transition. -/
theorem codeUnits_note (all : List Key) (rs : List JobRecord) :
    codeUnits all (rs.flatMap fun r => [Instr.note r, Instr.emitProgress false]) = 0 := by
  induction rs with
  | nil => rfl
  | cons r rs ih => simpa [Instr.units] using ih

/-- The units a pool of threads holds for cycle `c`. -/
def held (all : List Key) (c : ℕ) (threads : List Thread) : Multiset Key :=
  (threads.map fun t => if t.cycle = c then codeUnits all t.code else 0).sum

/-- The keys and the serial numbers of the retry entries. -/
def Cycle.pendingKeys (cyc : Cycle) : Multiset Key :=
  (cyc.pendingRetries.entries.map Prod.fst : List Key)

def Cycle.pendingSerials (cyc : Cycle) : Multiset ℕ :=
  (cyc.pendingRetries.entries.map fun e => e.2.serial : List ℕ)

theorem Cycle.mem_pendingKeys {cyc : Cycle} {k : Key} :
    k ∈ cyc.pendingKeys ↔ k ∈ cyc.pendingRetries.keys := Iff.rfl

/-- Popping an entry takes out its key and its serial number, and settles it. -/
theorem Cycle.popRetry_spec {cyc cyc' : Cycle} {k : Key} {how : Settlement} {entry : PendingRetry}
    (h : cyc.popRetry k how = some (entry, cyc')) :
    cyc.pendingKeys = {k} + cyc'.pendingKeys ∧
      cyc.pendingSerials = {entry.serial} + cyc'.pendingSerials ∧
      cyc'.ledger = { cyc.ledger with
        settled := cyc.ledger.settled ++ [(entry.serial, how)] } ∧
      cyc' = { cyc with pendingRetries := cyc'.pendingRetries, ledger := cyc'.ledger } := by
  obtain ⟨entry', hget, hpair⟩ := Option.map_eq_some_iff.mp h
  obtain ⟨rfl, rfl⟩ := Prod.mk.inj hpair
  have hp := Dict.entries_erase_perm hget
  refine ⟨?_, ?_, rfl, rfl⟩
  · exact Multiset.coe_eq_coe.mpr (hp.map Prod.fst)
  · exact Multiset.coe_eq_coe.mpr (hp.map fun e => e.2.serial)

/-- Registering an entry under a key that has none. -/
theorem Cycle.addRetry_spec {cyc : Cycle} {k : Key} {a : Attempt} {n : ℕ}
    (h : k ∉ cyc.pendingKeys) :
    (cyc.addRetry k a n).pendingKeys = cyc.pendingKeys + {k} ∧
      (cyc.addRetry k a n).pendingSerials = cyc.pendingSerials + {n} := by
  have he := Dict.entries_set_of_not_mem (d := cyc.pendingRetries) (⟨a, n⟩ : PendingRetry)
    (mt Cycle.mem_pendingKeys.mpr h)
  constructor
  · simp [pendingKeys, addRetry, he, ← Multiset.coe_add]
  · simp [pendingSerials, addRetry, he, ← Multiset.coe_add]

section Exec

variable {P : Params} {o : Oracle} {c : ℕ} {cyc : Cycle} {w : Shared} {x : Instr} {e : Effect}

/-- The reset of one key hands its unit to the launched list under the key of the record it wrote,
which is the same key. -/
theorem resetRecords_units (P : Params) (o : Oracle) (cyc : Cycle) (hp : w.store.Placed)
    (todo : List (Key × List String))
    (b : Finset Key) (prev : Dict Key JobRecord) (l : List JobRecord) (st : List ℕ)
    (sk : List Key) :
    (resetRecords P o cyc w todo b prev l st sk).cyc.ledger.counted = cyc.ledger.counted ∧
      (resetRecords P o cyc w todo b prev l st sk).cyc.pendingRetries = cyc.pendingRetries ∧
      (resetRecords P o cyc w todo b prev l st sk).spawned = [] ∧
      codeUnits cyc.keys (resetRecords P o cyc w todo b prev l st sk).code
        = (Instr.reset todo b prev l st sk).units cyc.keys := by
  cases todo with
  | nil =>
    rw [resetRecords]
    by_cases hs : sk = []
    · simp [Effect.pass, Instr.units, hs]
    · simp [Effect.pass, Instr.units, hs, add_comm]
  | cons ki todo =>
    obtain ⟨k, item⟩ := ki
    rw [resetRecords]
    split
    case isTrue =>
      refine ⟨rfl, rfl, rfl, ?_⟩
      simp only [Instr.units, codeUnits_cons, codeUnits_nil, List.map_cons, ← Multiset.coe_add,
        ← Multiset.cons_coe, ← Multiset.singleton_add]
      abel
    case isFalse =>
      split
      case h_1 => simp [Effect.pass, Instr.units, ← Multiset.cons_coe]
      case h_2 =>
        rw [InMemoryStore.transition_no_guard]
        have hT := InMemoryStore.transition_cases P.jobsetId k o.now
          (resetFields w.nextGen (P.join item)) hp
          (by simp [resetFields, Field.Plain, Field.badName?, Field.keyName?])
          (some .submitting) fun _ => true
        generalize w.store.transition o.now P.jobsetId k (some .submitting)
          (Guard.of fun _ => true) (resetFields w.nextGen (P.join item)) = out at hT
        cases hT with
        | gone => simp [Effect.pass, Instr.units, ← Multiset.cons_coe]
        | refused _ hfalse => cases hfalse
        | @done old store' hold _ _ =>
          have hkey : old.jobKey = k := (hp.own _ _ _ hold).2
          refine ⟨rfl, rfl, rfl, ?_⟩
          simp only [Instr.units, codeUnits_cons, codeUnits_nil, List.map_cons, List.map_append,
            Option.toList_some, List.map_nil, JobRecord.rewrite, resetFields, List.foldl_cons,
            List.foldl_nil, Field.put, hkey, ← Multiset.coe_add, ← Multiset.cons_coe,
            ← Multiset.singleton_add, Multiset.coe_nil]
          abel

/-- How the store after an instruction comes about: it is the store before, or one compare-and-set
write in the jobset. -/
inductive Stored (P : Params) (s : InMemoryStore) : InMemoryStore → Prop
  | same : Stored P s s
  | wrote {now : Time} {k : Key} {st : Option JobState} {guard : Option Guard} {fields : List Field}
      {r : Option JobRecord} {s' : InMemoryStore} : (∀ f ∈ fields, f.Plain) →
      s.transition now P.jobsetId k st guard fields = .ok (r, s') → Stored P s s'

/-- `_reset_records` -/
def Instr.isReset : Instr → Bool
  | reset .. => true
  | _ => false

/-- **What an instruction does to the store**; only the reset draws a generation. -/
theorem exec_stored (hp : w.store.Placed) (h : exec P o c cyc w x = some e) :
    Stored P w.store e.store ∧ (x.isReset = false → e.nextGen = w.nextGen) := by
  have hplain : ∀ fields : List Field, (fields.findSome? Field.badName?).isNone →
      (fields.findSome? Field.keyName?).isNone → ∀ f ∈ fields, f.Plain := by
    intro fields hb hk f hf
    rw [Option.isNone_iff_eq_none, List.findSome?_eq_none_iff] at hb hk
    exact ⟨hb f hf, hk f hf⟩
  cases x
  case slotWait k a =>
    simp only [exec, slotWait] at h
    split at h <;> split at h <;> cases h <;> exact ⟨.same, fun _ => rfl⟩
  case toSubmitting k a =>
    obtain rfl := Option.some.inj h
    rw [toSubmitting]
    split
    · exact ⟨.same, fun _ => rfl⟩
    · exact ⟨.wrote (hplain _ rfl rfl) ‹_›, fun _ => rfl⟩
  case succeeded k n =>
    obtain rfl := Option.some.inj h
    rw [taskSucceeded]
    split
    · exact ⟨.same, fun _ => rfl⟩
    · exact ⟨.wrote (hplain _ rfl rfl) ‹_›, fun _ => rfl⟩
  case toRetryWait k a err =>
    obtain rfl := Option.some.inj h
    rw [toRetryWait]
    split
    · exact ⟨.same, fun _ => rfl⟩
    · exact ⟨.wrote (hplain _ rfl rfl) ‹_›, fun _ => rfl⟩
  case toSubmitFailed k a err =>
    obtain rfl := Option.some.inj h
    rw [toSubmitFailed]
    split
    · exact ⟨.same, fun _ => rfl⟩
    · exact ⟨.wrote (hplain _ rfl rfl) ‹_›, fun _ => rfl⟩
  case giveUpWrite k reason =>
    obtain rfl := Option.some.inj h
    rw [finalizeRetryWrite]
    split
    · exact ⟨.same, fun _ => rfl⟩
    · exact ⟨.wrote (hplain _ rfl rfl) ‹_›, fun _ => rfl⟩
  case crashed k m =>
    obtain rfl := Option.some.inj h
    rw [taskCrashed]
    split
    · exact ⟨.same, fun _ => rfl⟩
    · exact ⟨.wrote (hplain _ rfl rfl) ‹_›, fun _ => rfl⟩
  case gateFail ks todo m st =>
    obtain rfl := Option.some.inj h
    cases todo with
    | nil => exact ⟨.same, fun _ => rfl⟩
    | cons r todo =>
      rw [gateFail]
      split
      · exact ⟨.same, fun _ => rfl⟩
      · exact ⟨.wrote (hplain _ rfl rfl) ‹_›, fun _ => rfl⟩
  case cancelled k =>
    obtain rfl := Option.some.inj h
    rw [markCancelled, InMemoryStore.transitionMany_singleton hp (hplain _ rfl rfl)]
    split
    · rename_i hout
      split at hout <;> cases hout
    · rename_i hout
      split at hout
      · cases hout
        exact ⟨.same, fun _ => rfl⟩
      · cases hout
        exact ⟨.wrote (hplain _ rfl rfl) ‹_›, fun _ => rfl⟩
  case reset todo b prev l st sk =>
    obtain rfl := Option.some.inj h
    refine ⟨?_, fun hx => by cases hx⟩
    cases todo with
    | nil => exact .same
    | cons ki todo =>
      rw [resetRecords]
      split
      · exact .same
      · split
        · exact .same
        · split
          · exact .same
          · exact .wrote (hplain _ rfl rfl) ‹_›
  all_goals
    obtain rfl := Option.some.inj h
    simp only [enterInflight, slotHeld, runSubmit, taskFailed, retryCheck, markRetried,
      scheduleRetry, requestRetry, releaseSlot, leaveInflight, onRetryRequested, fire, fired,
      finalizeRetry, note, count, emitProgress, finishIfDone, unregister, dropContext,
      registerCycle, newContext, startLaunch, preSubmitStart, preSubmitRun,
        preSubmitOk, launchCycle,
      readBlocked, readPrevious, makeTasks, checkFinished, announce, fanOut, gateReject,
      finishForced, vanished]
    repeat' split
    all_goals exact ⟨.same, fun _ => rfl⟩

/-- An instruction keeps the placement of the records. -/
theorem exec_placed (hp : w.store.Placed) (h : exec P o c cyc w x = some e) : e.store.Placed := by
  obtain ⟨hs, -⟩ := exec_stored hp h
  generalize e.store = s at hs
  cases hs with
  | same => exact hp
  | wrote hf ht => exact hp.transition ht hf

/-- **An instruction neither makes nor drops a unit**: what was counted, waiting for a retry, or
held by the instruction is afterwards counted, waiting, held by the code it calls for, or by the
threads it spawns. -/
theorem exec_units (hp : w.store.Placed) (hfin : cyc.finished = true → x.units cyc.keys = 0)
    (hpend : ∀ k ∈ x.units cyc.keys, k ∉ cyc.pendingKeys)
    (h : exec P o c cyc w x = some e) :
    (e.cyc.ledger.counted : Multiset Key) + codeUnits cyc.keys e.code
        + (e.spawned.map (codeUnits cyc.keys)).sum + e.cyc.pendingKeys
      = (cyc.ledger.counted : Multiset Key) + x.units cyc.keys + cyc.pendingKeys := by
  cases x
  case slotWait k a =>
    simp only [exec, slotWait] at h
    split at h <;> split at h <;> cases h <;> simp [Effect.pass, Instr.units, Cycle.pendingKeys]
  case schedule k a =>
    obtain rfl := Option.some.inj h
    have hk := Cycle.addRetry_spec (a := a) (n := w.nextSerial) (hpend k (by simp [Instr.units]))
    change (cyc.ledger.counted : Multiset Key) + codeUnits cyc.keys [] + 0
      + (cyc.addRetry k a w.nextSerial).pendingKeys = _ + {k} + _
    rw [hk.1, codeUnits_nil]
    abel
  case fire k =>
    obtain rfl := Option.some.inj h
    rw [fire]
    split
    case h_1 => simp [Effect.pass, Instr.units]
    case h_2 entry cyc' hpop =>
      obtain ⟨hkeys, -, hled, -⟩ := Cycle.popRetry_spec hpop
      simp only [Effect.pass, hkeys, hled, Instr.units, codeUnits_cons, codeUnits_nil, List.map_nil,
        List.sum_nil]
      abel
  case count ks out ch =>
    obtain rfl := Option.some.inj h
    rw [count]
    split
    case isTrue hk => simp [Effect.pass, Instr.units, hk]
    case isFalse =>
      cases out <;>
        simp [Effect.pass, Instr.units, Cycle.addDone, Cycle.pendingKeys, ← Multiset.coe_add]
  case reset todo b prev l st sk =>
    obtain rfl := Option.some.inj h
    obtain ⟨h₁, h₂, h₃, h₄⟩ := resetRecords_units P o cyc hp todo b prev l
      st sk
    rw [h₁, h₃, h₄, Cycle.pendingKeys, h₂, Cycle.pendingKeys]
    simp
  case checkFinished l =>
    obtain rfl := Option.some.inj h
    rw [checkFinished]
    split
    case isTrue hf => simp_all [Effect.pass]
    case isFalse => simp [Effect.pass, Instr.units]
  case announce l =>
    obtain rfl := Option.some.inj h
    rw [announce]
    by_cases hl : l = [] <;> simp [Effect.pass, Instr.units, hl]
  case fanOut todo =>
    obtain rfl := Option.some.inj h
    cases todo with
    | nil => simp [fanOut, Effect.pass, Instr.units]
    | cons r todo =>
      simp only [fanOut, Effect.pass, Instr.units, codeUnits_cons, codeUnits_nil, List.map_cons,
        List.map_nil, List.sum_cons, List.sum_nil, ← Multiset.cons_coe, ← Multiset.singleton_add]
      abel
  case gateFail ks todo m st =>
    obtain rfl := Option.some.inj h
    cases todo with
    | nil => simp [gateFail, Effect.pass, Instr.units]
    | cons r todo =>
      rw [gateFail]
      split <;> simp [Effect.pass, Instr.units]
  case finishForced ks f em =>
    obtain rfl := Option.some.inj h
    rw [finishForced]
    split
    case isTrue hf => simp_all [Effect.pass, Instr.units]
    case isFalse =>
      cases f <;>
        simp [Effect.pass, Instr.units, Cycle.forceDone, Cycle.pendingKeys, ← Multiset.coe_add]
  -- every other instruction hands its unit to the code it calls for, or holds none
  all_goals
    obtain rfl := Option.some.inj h
    simp only [enterInflight, toSubmitting, slotHeld, runSubmit, taskSucceeded, taskFailed,
      retryCheck, toRetryWait, markRetried, requestRetry, toSubmitFailed, markCancelled,
      taskCrashed, releaseSlot, leaveInflight, note, emitProgress, finishIfDone, unregister,
      dropContext, onRetryRequested, fired, finalizeRetry, finalizeRetryWrite,
        registerCycle, newContext,
      startLaunch, preSubmitStart, preSubmitRun, preSubmitOk, launchCycle, readBlocked,
      readPrevious, makeTasks, gateReject, vanished, Effect.pass]
    repeat' split
    all_goals simp [Instr.units, codeUnits_note, Cycle.pendingKeys, Cycle.keys]

/-- Launch code is bookkeeping followed by one launch instruction. -/
def LaunchShaped (code : List Instr) : Prop :=
  ∃ book last, code = book ++ [last] ∧ last.isLaunch = true ∧ ∀ y ∈ book, y.isBook = true

/-- No launch instruction is left. -/
def Launched (code : List Instr) : Prop := ∀ y ∈ code, y.isLaunch = false

theorem launched_of_book {code : List Instr} (h : ∀ y ∈ code, y.isBook = true) : Launched code :=
  fun y hy => Instr.not_isLaunch_of_isBook (h y hy)

theorem Launched.not_launchShaped {code : List Instr} (h : Launched code) :
    ¬LaunchShaped code := by
  rintro ⟨book, last, rfl, hlast, -⟩
  exact absurd (h last (by simp)) (by simp [hlast])

/-- A launch instruction is the last one of its code. -/
theorem LaunchShaped.rest_eq_nil {x : Instr} {rest : List Instr} (h : LaunchShaped (x :: rest))
    (hx : x.isLaunch = true) : rest = [] := by
  obtain ⟨book, last, heq, -, hbook⟩ := h
  cases book with
  | nil => exact (List.cons.inj heq).2
  | cons y book =>
    obtain rfl := (List.cons.inj heq).1
    exact absurd (Instr.not_isLaunch_of_isBook (hbook x List.mem_cons_self)) (by simp [hx])

/-- Launch code that starts with something else starts with bookkeeping. -/
theorem LaunchShaped.of_cons {x : Instr} {rest : List Instr} (h : LaunchShaped (x :: rest)) :
    x.isLaunch = true ∧ rest = [] ∨ x.isBook = true ∧ LaunchShaped rest := by
  obtain ⟨book, last, heq, hlast, hbook⟩ := h
  cases book with
  | nil =>
    obtain ⟨rfl, rfl⟩ := List.cons.inj heq
    exact .inl ⟨hlast, rfl⟩
  | cons y book =>
    obtain ⟨rfl, rfl⟩ := List.cons.inj heq
    exact .inr ⟨hbook _ List.mem_cons_self, book, last, rfl, hlast, fun z hz =>
      hbook z (List.mem_cons_of_mem _ hz)⟩

theorem LaunchShaped.append {book code : List Instr} (hb : ∀ y ∈ book, y.isBook = true)
    (h : LaunchShaped code) : LaunchShaped (book ++ code) := by
  obtain ⟨book', last, rfl, hlast, hbook⟩ := h
  refine ⟨book ++ book', last, by simp, hlast, fun y hy => ?_⟩
  exact (List.mem_append.mp hy).elim (hb y) (hbook y)

theorem launchShaped_singleton {y : Instr} (h : y.isLaunch = true) : LaunchShaped [y] :=
  ⟨[], y, rfl, h, by simp⟩

/-- Bookkeeping calls for bookkeeping only. -/
theorem exec_book (hx : x.isBook = true) (h : exec P o c cyc w x = some e) :
    (∀ y ∈ e.code, y.isBook = true) ∧ e.spawned = [] ∧
      e.cyc.pendingRetries = cyc.pendingRetries := by
  cases x
  case count ks out ch =>
    obtain rfl := Option.some.inj h
    rw [count]
    split
    case isTrue => exact ⟨by simp [Effect.pass], rfl, rfl⟩
    case isFalse => exact ⟨by simp [Instr.isBook], rfl, by cases out <;> rfl⟩
  case note r => obtain rfl := Option.some.inj h; exact ⟨by simp [note, Effect.pass], rfl, rfl⟩
  case emitProgress b =>
    obtain rfl := Option.some.inj h
    rw [emitProgress]
    split <;> exact ⟨by simp [Effect.pass], rfl, rfl⟩
  case finishIfDone b =>
    obtain rfl := Option.some.inj h
    rw [finishIfDone]
    split
    case isTrue => exact ⟨by simp [Effect.pass], rfl, rfl⟩
    case isFalse => exact ⟨by simp [Instr.isBook], rfl, rfl⟩
  case unregister =>
    obtain rfl := Option.some.inj h; exact ⟨by simp [unregister, Effect.pass], rfl, rfl⟩
  case dropContext =>
    obtain rfl := Option.some.inj h; exact ⟨by simp [dropContext, Effect.pass], rfl, rfl⟩
  all_goals cases hx

/-- A launch instruction calls for launch code, or ends the launch; it spawns no thread and leaves
the retry ledger alone. -/
theorem exec_launch (hx : x.isLaunch = true) (h : exec P o c cyc w x = some e) :
    (LaunchShaped e.code ∨ Launched e.code) ∧ e.spawned = [] ∧
      e.cyc.pendingRetries = cyc.pendingRetries := by
  cases x
  case reset todo b prev l st sk =>
    obtain rfl := Option.some.inj h
    cases todo with
    | nil =>
      refine ⟨.inl ?_, rfl, rfl⟩
      by_cases hs : sk = []
      · exact ⟨[], .makeTasks l, by simp [resetRecords, hs], rfl, by simp⟩
      · exact ⟨[.count sk .cancelled []], .makeTasks l, by simp [resetRecords, hs], rfl,
          by simp [Instr.isBook]⟩
    | cons ki todo =>
      obtain ⟨k, item⟩ := ki
      rw [resetRecords]
      split
      case isTrue => exact ⟨.inl (launchShaped_singleton rfl), rfl, rfl⟩
      case isFalse =>
        split
        case h_1 => exact ⟨.inl ⟨[_], _, rfl, rfl, by simp [Instr.isBook]⟩, rfl, rfl⟩
        case h_2 =>
          split
          case h_1 => exact ⟨.inl ⟨[_], _, rfl, rfl, by simp [Instr.isBook]⟩, rfl, rfl⟩
          case h_2 => exact ⟨.inl (launchShaped_singleton rfl), rfl, rfl⟩
  case gateFail ks todo m st =>
    obtain rfl := Option.some.inj h
    cases todo with
    | nil => exact ⟨.inl (launchShaped_singleton rfl), rfl, rfl⟩
    | cons r todo =>
      rw [gateFail]
      split <;> exact ⟨.inl (launchShaped_singleton rfl), rfl, rfl⟩
  case newContext reg b =>
    obtain rfl := Option.some.inj h
    rw [newContext]
    split <;> exact ⟨.inl (launchShaped_singleton rfl), rfl, rfl⟩
  case startLaunch b =>
    obtain rfl := Option.some.inj h
    rw [startLaunch]
    split
    · exact ⟨.inl (launchShaped_singleton rfl), rfl, rfl⟩
    · cases b <;> exact ⟨.inl (launchShaped_singleton rfl), rfl, rfl⟩
  case announce l =>
    obtain rfl := Option.some.inj h
    rw [announce]
    split
    · exact ⟨.inl (launchShaped_singleton rfl), rfl, rfl⟩
    · exact ⟨.inr (by simp [Launched, Instr.isLaunch]), rfl, rfl⟩
  case checkFinished l =>
    obtain rfl := Option.some.inj h
    rw [checkFinished]
    split
    · exact ⟨.inr (by simp [Launched, Effect.pass]), rfl, rfl⟩
    · exact ⟨.inl (launchShaped_singleton rfl), rfl, rfl⟩
  case finishForced ks f em =>
    obtain rfl := Option.some.inj h
    rw [finishForced]
    split
    · exact ⟨.inr (by simp [Launched, Instr.isLaunch]), rfl, rfl⟩
    · exact ⟨.inr (by simp [Launched, Instr.isLaunch]), rfl, by cases f <;> rfl⟩
  case finishIfDone b =>
    obtain rfl := Option.some.inj h
    rw [finishIfDone]
    split
    · exact ⟨.inr (by simp [Launched, Effect.pass]), rfl, rfl⟩
    · exact ⟨.inr (by simp [Launched, Instr.isLaunch]), rfl, rfl⟩
  case register | launch | readBlocked | readPrevious | gateReject =>
    obtain rfl := Option.some.inj h
    exact ⟨.inl (launchShaped_singleton rfl), rfl, rfl⟩
  case preSubmitStart | preSubmitRun | preSubmitOk | makeTasks =>
    obtain rfl := Option.some.inj h
    simp only [preSubmitStart, preSubmitRun, preSubmitOk, makeTasks]
    split <;> exact ⟨.inl (launchShaped_singleton rfl), rfl, rfl⟩
  all_goals cases hx

/-- A thread that launches spawns nothing and leaves the retry ledger alone. -/
theorem exec_launchShaped {rest : List Instr} (hs : LaunchShaped (x :: rest))
    (h : exec P o c cyc w x = some e) :
    e.spawned = [] ∧ e.cyc.pendingRetries = cyc.pendingRetries := by
  rcases hs.of_cons with ⟨hx, -⟩ | ⟨hx, -⟩
  · exact (exec_launch hx h).2
  · exact (exec_book hx h).2

/-- Outside a launch no launch code appears. -/
theorem exec_launched (hx : x.isLaunch = false) (h : exec P o c cyc w x = some e) :
    Launched e.code ∧ ∀ code ∈ e.spawned, Launched code := by
  cases x
  case slotWait k a =>
    simp only [exec, slotWait] at h
    split at h <;> split at h <;> cases h <;>
      exact ⟨by simp [Launched, Instr.isLaunch], by simp [Effect.pass]⟩
  case toSubmitting k a =>
    obtain rfl := Option.some.inj h
    rw [toSubmitting]
    split
    · exact ⟨by simp [vanished, Launched, Instr.isLaunch], by simp [vanished, Effect.pass]⟩
    · refine ⟨?_, by simp [Effect.pass]⟩
      split <;> simp +contextual [Launched, Instr.isLaunch, or_imp]
  case toRetryWait k a err =>
    obtain rfl := Option.some.inj h
    rw [toRetryWait]
    split
    · exact ⟨by simp [vanished, Launched, Instr.isLaunch], by simp [vanished, Effect.pass]⟩
    · refine ⟨?_, by simp [Effect.pass]⟩
      simp +contextual [Launched, Instr.isLaunch, or_imp]
  case fanOut todo =>
    obtain rfl := Option.some.inj h
    cases todo <;> simp [fanOut, Effect.pass, Launched, Instr.isLaunch]
  case finishIfDone b =>
    cases b
    · exact ⟨launched_of_book (exec_book rfl h).1, by simp [(exec_book rfl h).2.1]⟩
    · cases hx
  case fire k =>
    obtain rfl := Option.some.inj h
    rw [fire]
    split <;> simp [Effect.pass, Launched, Instr.isLaunch]
  case count | note | emitProgress | unregister | dropContext =>
    exact ⟨launched_of_book (exec_book rfl h).1, by simp [(exec_book rfl h).2.1]⟩
  case register | newContext | startLaunch | preSubmitStart | preSubmitRun | preSubmitOk | launch |
      readBlocked | readPrevious | reset | makeTasks | checkFinished | announce | gateReject |
      gateFail | finishForced => cases hx
  all_goals
    obtain rfl := Option.some.inj h
    simp only [enterInflight, slotHeld, runSubmit, taskSucceeded, taskFailed, retryCheck,
      markRetried, scheduleRetry, requestRetry, toSubmitFailed, markCancelled, taskCrashed,
      releaseSlot, leaveInflight, onRetryRequested, fired, finalizeRetry, finalizeRetryWrite,
      vanished]
    repeat' split
    all_goals simp [Effect.pass, Launched, Instr.isLaunch]

/-- **The shape of a thread's code stays**: launching, or launched. -/
theorem exec_shape {rest : List Instr} (hs : Launched (x :: rest) ∨ LaunchShaped (x :: rest))
    (h : exec P o c cyc w x = some e) :
    (Launched (e.code ++ rest) ∨ LaunchShaped (e.code ++ rest)) ∧
      ∀ code ∈ e.spawned, Launched code := by
  rcases hs with hs | hs
  · obtain ⟨h₁, h₂⟩ := exec_launched (hs x List.mem_cons_self) h
    refine ⟨.inl fun y hy => ?_, h₂⟩
    exact (List.mem_append.mp hy).elim (h₁ y) fun hy => hs y (List.mem_cons_of_mem _ hy)
  · have hspawned := (exec_launchShaped hs h).1
    refine ⟨?_, by simp [hspawned]⟩
    rcases hs.of_cons with ⟨hx, rfl⟩ | ⟨hx, hrest⟩
    · rw [List.append_nil]
      exact (exec_launch hx h).1.symm
    · exact .inr (hrest.append (exec_book hx h).1)

/-- No instruction changes the keys of its cycle. -/
theorem exec_keyed (h : exec P o c cyc w x = some e) : e.cyc.keyed = cyc.keyed := by
  cases x
  case slotWait k a =>
    simp only [exec, slotWait] at h
    split at h <;> split at h <;> cases h <;> rfl
  case count ks out ch =>
    obtain rfl := Option.some.inj h
    rw [count]
    split <;> [rfl; cases out <;> rfl]
  case reset todo b prev l st sk =>
    obtain rfl := Option.some.inj h
    cases todo with
    | nil => rfl
    | cons ki todo =>
      rw [resetRecords]
      repeat' split
      all_goals rfl
  case fire k =>
    obtain rfl := Option.some.inj h
    rw [fire]
    split
    case h_1 => rfl
    case h_2 hpop =>
      have := congrArg Cycle.keyed (Cycle.popRetry_spec hpop).2.2.2
      exact this
  case fanOut todo => obtain rfl := Option.some.inj h; cases todo <;> rfl
  case gateFail ks todo m st =>
    obtain rfl := Option.some.inj h
    cases todo with
    | nil => rfl
    | cons r todo => rw [gateFail]; split <;> rfl
  case finishForced ks f em =>
    obtain rfl := Option.some.inj h
    rw [finishForced]
    split <;> [rfl; cases f <;> rfl]
  all_goals
    obtain rfl := Option.some.inj h
    simp only [enterInflight, toSubmitting, slotHeld, runSubmit, taskSucceeded, taskFailed,
      retryCheck, toRetryWait, markRetried, scheduleRetry, requestRetry, toSubmitFailed,
      markCancelled, taskCrashed, releaseSlot, leaveInflight, note, emitProgress, finishIfDone,
      unregister, dropContext, onRetryRequested, fired, finalizeRetry, finalizeRetryWrite,
      registerCycle, newContext, startLaunch, preSubmitStart, preSubmitRun,
        preSubmitOk, launchCycle,
      readBlocked, readPrevious, makeTasks, checkFinished, announce, gateReject, vanished]
    repeat' split
    all_goals rfl

end Exec

end Lsfmgr.Submit
