import Mathlib
import Lsfmgr.Jobset.Build
import Lsfmgr.Store.Revisions
import Lsfmgr.Submit.Current

/-!
# Submit/Commands — what is run is the line of the record

A cycle splits the lines of its records into argvs, and its reset joins them again and writes the
lines back.  A line that was made by joining splits into what it was joined from, so the line of a
record stays what it is until another record takes its place.  A task takes its argv along, through
all its retries (`Carrying`), so every attempt runs what that line splits into.
-/

namespace Lsfmgr.Submit

open Machinery Jobset

/-! ## Stores with the same lines -/

/-- The records of the jobset were there before, with the lines they have. -/
def SameLines (js : String) (s s' : InMemoryStore) : Prop :=
  ∀ k r', s'.job? js k = some r' → ∃ r, s.job? js k = some r ∧ r'.command = r.command

section Stores

variable {s s' : InMemoryStore} {js js' k : String} {now : Time}

theorem SameLines.refl (js : String) (s : InMemoryStore) : SameLines js s s :=
  fun _ r h => ⟨r, h, rfl⟩

theorem sameLines_wrote {v : Option JobRecord} (hw : s.Wrote js' k v s')
    (hv : ∀ r', v = some r' → ∃ r, s.job? js' k = some r ∧ r'.command = r.command) :
    SameLines js s s' := by
  intro k' r' hr'
  rw [hw.job?] at hr'
  split at hr'
  case isTrue hc =>
    obtain ⟨rfl, rfl⟩ := hc
    exact hv r' hr'
  case isFalse => exact ⟨r', hr', rfl⟩

theorem command_rewrite {fields : List Field}
    (hf : ∀ f ∈ fields, ∀ line, f ≠ .command line) (r : JobRecord)
    (st : JobState) (revision : ℕ) : (r.rewrite now st revision fields).command = r.command := by
  change (fields.foldl (fun r f => f.put r) r).command = r.command
  induction fields generalizing r with
  | nil => rfl
  | cons f fields ih =>
    obtain ⟨hf, hfields⟩ := List.forall_mem_cons.mp hf
    rw [List.foldl_cons, ih hfields]
    cases f with
    | command line => exact absurd rfl (hf line)
    | _ => rfl

/-- A transition that does not set the line keeps it. -/
theorem sameLines_transition (hp : s.Placed) {st : Option JobState} {guard : Option Guard}
    {fields : List Field}
    {out : Option JobRecord} (h : s.transition now js' k st guard fields = .ok (out, s'))
    (hf : ∀ f ∈ fields, ∀ line, f ≠ .command line) : SameLines js s s' := by
  obtain ⟨-, rfl⟩ | ⟨old, new, -, hold, rfl, -, hw⟩ := InMemoryStore.transition_ok hp h
  · exact .refl js s'
  · refine sameLines_wrote hw fun r' hr' => ⟨old, hold, ?_⟩
    obtain rfl := Option.some.inj hr'
    exact command_rewrite hf old _ _

end Stores

/-! ## The lines of one instruction -/

/-- The argvs an instruction has still to write back. -/
def Instr.items : Instr → List (Key × List String)
  | reset todo _ _ _ _ _ => todo
  | _ => []

section Exec

variable {P : Params} {o : Oracle} {c : ℕ} {cyc : Cycle} {w : Shared} {x : Instr} {e : Effect}

theorem mem_units_of_items {all : List Key} {ki : Key × List String} (h : ki ∈ x.items) :
    ki.1 ∈ x.units all := by
  cases x
  case reset todo b prev l st sk =>
    rw [Instr.units, Multiset.mem_add, Multiset.mem_add]
    exact .inl (.inl (Multiset.mem_coe.mpr (List.mem_map_of_mem h)))
  all_goals cases h

/-- **What an instruction does to the lines**: it keeps them, but for the reset, which writes the
argv it has for the record. -/
theorem exec_lines (hp : w.store.Placed) (h : exec P o c cyc w x = some e)
    {k : Key} {r' : JobRecord}
    (hr' : e.store.job? P.jobsetId k = some r') :
    ∃ r, w.store.job? P.jobsetId k = some r ∧
      (r'.command = r.command ∨ ∃ argv, (k, argv) ∈ x.items ∧ r'.command = P.join argv) := by
  have hsame : SameLines P.jobsetId w.store e.store → ∃ r, w.store.job? P.jobsetId k = some r ∧
      (r'.command = r.command ∨ ∃ argv, (k, argv) ∈ x.items ∧ r'.command = P.join argv) :=
        fun hs => by
    obtain ⟨r, hr, heq⟩ := hs k r' hr'
    exact ⟨r, hr, .inl heq⟩
  cases x
  case slotWait k a =>
    refine hsame ?_
    simp only [exec, slotWait] at h
    split at h <;> split at h <;> cases h <;> exact .refl _ _
  case cancelled k =>
    obtain rfl := Option.some.inj h
    refine hsame ?_
    rw [markCancelled, InMemoryStore.transitionMany_singleton hp
      (by simp [Field.Plain, Field.badName?, Field.keyName?])]
    split
    case h_1 hout => split at hout <;> cases hout
    case h_2 hout =>
      split at hout
      case h_1 =>
        cases hout
        exact .refl _ _
      case h_2 =>
        cases hout
        exact sameLines_transition hp ‹_› (by simp)
  case gateFail ks todo m st =>
    obtain rfl := Option.some.inj h
    refine hsame ?_
    cases todo with
    | nil => exact .refl _ _
    | cons r todo =>
      rw [gateFail]
      split <;> [exact .refl _ _; exact sameLines_transition hp ‹_› (by simp)]
  case reset todo b prev l st sk =>
    obtain rfl := Option.some.inj h
    obtain - | ⟨⟨key, item⟩, todo⟩ := todo
    · exact hsame (.refl _ _)
    · by_cases hb : key ∈ b
      · exact hsame (by rw [resetRecords, if_pos hb]; exact .refl _ _)
      rcases hfails : o.resetFails with - | m
      case some => exact hsame (by simp only [resetRecords, if_neg hb, hfails]; exact .refl _ _)
      case none =>
        simp only [resetRecords, if_neg hb, hfails] at hr' hsame
        split at hr'
        case h_1 heq => exact ⟨r', hr', .inl rfl⟩
        case h_2 out store heq =>
          obtain ⟨-, rfl⟩ | ⟨old, new, -, hold, rfl, -, hw⟩ := InMemoryStore.transition_ok hp heq
          · exact ⟨r', hr', .inl rfl⟩
          · have hstore : store.job? P.jobsetId k = some r' := hr'
            rw [hw.job?] at hstore
            split at hstore
            case isTrue hc =>
              obtain ⟨-, rfl⟩ := hc
              obtain rfl := Option.some.inj hstore
              exact ⟨old, hold, .inr ⟨item, List.mem_cons_self, rfl⟩⟩
            case isFalse => exact ⟨r', hstore, .inl rfl⟩
  all_goals
    obtain rfl := Option.some.inj h
    refine hsame ?_
    simp only [enterInflight, toSubmitting, slotHeld, runSubmit, taskSucceeded,
      taskFailed, retryCheck, toRetryWait, markRetried, scheduleRetry, requestRetry, toSubmitFailed,
      taskCrashed, releaseSlot,
      leaveInflight, onRetryRequested, fire, fired, finalizeRetry, finalizeRetryWrite, note, count,
      emitProgress, finishIfDone, unregister, dropContext, registerCycle, newContext, startLaunch,
      preSubmitStart, preSubmitRun, preSubmitOk, launchCycle, readBlocked, readPrevious, makeTasks,
      checkFinished, announce, fanOut, gateReject, finishForced, vanished]
    repeat' split
    all_goals first | exact .refl _ _ | exact sameLines_transition hp ‹_› (by simp)

theorem items_of_not_isLaunch (hx : x.isLaunch = false) : x.items = [] := by
  cases x <;> first | rfl | cases hx

/-- **Where argvs come from**: an instruction passes on those it has, or takes those of its
cycle. -/
theorem exec_items (h : exec P o c cyc w x = some e) :
    (∀ y ∈ e.code, ∀ ki ∈ y.items, ki ∈ x.items ∨ ki ∈ cyc.keyed) ∧
      ∀ code ∈ e.spawned, ∀ y ∈ code, y.items = [] := by
  rcases hx : x.isLaunch with - | -
  · obtain ⟨hcode, hspawned⟩ := exec_launched hx h
    refine ⟨fun y hy ki hki => ?_, fun code hc y hy =>
      items_of_not_isLaunch (hspawned code hc y hy)⟩
    rw [items_of_not_isLaunch (hcode y hy)] at hki
    cases hki
  refine ⟨?_, by simp [(exec_launch hx h).2.1]⟩
  cases x
  case readPrevious b =>
    obtain rfl := Option.some.inj h
    simp +contextual [readPrevious, Instr.items]
  case reset todo b prev l st sk =>
    obtain rfl := Option.some.inj h
    cases todo with
    | nil => by_cases hs : sk = [] <;> simp [resetRecords, Instr.items, hs]
    | cons ki todo =>
      rw [resetRecords]
      repeat' split
      all_goals simp +contextual [Instr.items]
  case gateFail ks todo m st =>
    obtain rfl := Option.some.inj h
    cases todo with
    | nil => simp [gateFail, Instr.items]
    | cons r todo => rw [gateFail]; split <;> simp [Instr.items]
  case announce l =>
    obtain rfl := Option.some.inj h
    by_cases hl : l = [] <;> simp [announce, Instr.items, hl]
  case startLaunch b =>
    obtain rfl := Option.some.inj h
    rw [startLaunch]
    split <;> [skip; cases b] <;> simp [Instr.items]
  case newContext | register | preSubmitStart | preSubmitRun | preSubmitOk | launch |
    readBlocked | makeTasks |
      checkFinished | gateReject | finishForced | finishIfDone =>
    obtain rfl := Option.some.inj h
    simp only [newContext, registerCycle, preSubmitStart, preSubmitRun, preSubmitOk,
      launchCycle, readBlocked, makeTasks, checkFinished, gateReject, finishForced, finishIfDone]
    repeat' split
    all_goals simp [Effect.pass, Instr.items]
  all_goals cases hx

end Exec

/-! ## The argv of a task -/

/-- The argv is the item of the key. -/
def Cycle.Item (cyc : Cycle) (k : Key) (argv : List String) : Prop := argv = (cyc.argvOf k).getD []

/-- The job and the argv of the attempt that an instruction is part of. -/
def Instr.argv? : Instr → Option (Key × List String)
  | enter k a | toSubmitting k a | slotWait k a | slotHeld k a | running k a | failed k a _
  | retryCheck k a _ | toRetryWait k a _ | schedule k a | toSubmitFailed k a _ | fired k a =>
    some (k, a.argv)
  | _ => none

/-- An instruction of the cycle carries the argv of its job. -/
def Instr.Carries (cyc : Cycle) (x : Instr) : Prop :=
  ∀ k argv, x.argv? = some (k, argv) → cyc.Item k argv

/-- The retry entries of the cycle carry the argvs of their jobs. -/
def Cycle.Keeps (cyc : Cycle) : Prop :=
  ∀ k entry, cyc.pendingRetries.get? k = some entry → cyc.Item k entry.attempt.argv

theorem Cycle.Item.congr {cyc cyc' : Cycle} {k : Key} {argv : List String}
    (hkeyed : cyc'.keyed = cyc.keyed)
    (h : cyc.Item k argv) : cyc'.Item k argv := by
  rwa [Cycle.Item, Cycle.argvOf, hkeyed]

theorem Instr.Carries.congr {cyc cyc' : Cycle} {x : Instr} (hkeyed : cyc'.keyed = cyc.keyed)
    (h : x.Carries cyc) : x.Carries cyc' := fun k argv hka => (h k argv hka).congr hkeyed

theorem keeps_popRetry {cyc cyc' : Cycle} {k : Key} {how : Settlement} {entry : PendingRetry}
    (hkeeps : cyc.Keeps) (h : cyc.popRetry k how = some (entry, cyc')) :
    cyc.Item k entry.attempt.argv ∧ cyc'.Keeps := by
  obtain ⟨entry', hget, hpair⟩ := Option.map_eq_some_iff.mp h
  obtain ⟨rfl, rfl⟩ := Prod.mk.inj hpair
  refine ⟨hkeeps k _ hget, fun k' entry hentry => ?_⟩
  simp only [Dict.get?_erase] at hentry
  split at hentry
  case isTrue => cases hentry
  case isFalse => exact hkeeps k' entry hentry

theorem keeps_popRetries (how : Settlement) :
    ∀ (ks : List Key) {cyc : Cycle}, cyc.Keeps → (cyc.popRetries how ks).2.Keeps
  | [], _, h => h
  | k :: ks, cyc, h => by
      rw [Cycle.popRetries]
      split
      case h_1 => exact keeps_popRetries how ks h
      case h_2 hpop => exact keeps_popRetries how ks (keeps_popRetry h hpop).2

section Carrying

variable {P : Params} {o : Oracle} {c : ℕ} {cyc : Cycle} {w : Shared} {x : Instr} {e : Effect}

/-- The instructions where an argv comes from elsewhere than the instruction itself, or goes to the
retries. -/
def Instr.hands : Instr → Bool
  | schedule .. | fire _ | fanOut _ => true
  | _ => false

/-- The others pass on the argv that they have. -/
theorem exec_argvs (hx : x.hands = false) (h : exec P o c cyc w x = some e) :
    (∀ y ∈ e.code, y.argv? = none ∨ y.argv? = x.argv?) ∧
      (∀ code ∈ e.spawned, ∀ y ∈ code, y.argv? = none ∨ y.argv? = x.argv?) ∧
      e.cyc.pendingRetries = cyc.pendingRetries := by
  cases x
  case slotWait k a =>
    simp only [exec, slotWait] at h
    split at h <;> split at h <;> cases h <;> simp [Effect.pass, Instr.argv?]
  case schedule | fire | fanOut => cases hx
  case toSubmitting k a =>
    obtain rfl := Option.some.inj h
    rw [toSubmitting]
    split
    case h_1 => simp [vanished, Effect.pass, Instr.argv?]
    case h_2 rec store _ =>
      by_cases hfirst : a.number = 0 <;> cases rec <;> simp [Effect.pass, Instr.argv?, hfirst]
  case toRetryWait k a err =>
    obtain rfl := Option.some.inj h
    rw [toRetryWait]
    split
    case h_1 => simp [vanished, Effect.pass, Instr.argv?]
    case h_2 rec store _ => cases rec <;> simp [Effect.pass, Instr.argv?, Attempt.next]
  case count ks out ch =>
    obtain rfl := Option.some.inj h
    rw [count]
    split
    · simp [Effect.pass]
    · cases out <;> simp [Effect.pass, Cycle.addDone, Instr.argv?]
  case reset todo b prev l st sk =>
    obtain rfl := Option.some.inj h
    cases todo with
    | nil => by_cases hs : sk = [] <;> simp [resetRecords, Effect.pass, Instr.argv?, hs]
    | cons ki todo =>
      rw [resetRecords]
      repeat' split
      all_goals simp [Effect.pass, Instr.argv?]
  case gateFail ks todo m st =>
    obtain rfl := Option.some.inj h
    cases todo with
    | nil => simp [gateFail, Effect.pass, Instr.argv?]
    | cons r todo => rw [gateFail]; split <;> simp [Effect.pass, Instr.argv?]
  case finishForced ks f em =>
    obtain rfl := Option.some.inj h
    rw [finishForced]
    split
    · simp [Effect.pass, Instr.argv?]
    · cases f <;> simp [Effect.pass, Cycle.forceDone, Instr.argv?]
  case startLaunch b =>
    obtain rfl := Option.some.inj h
    rw [startLaunch]
    split <;> [skip; cases b] <;> simp [Effect.pass, Instr.argv?]
  case announce l =>
    obtain rfl := Option.some.inj h
    by_cases hl : l = [] <;> simp [announce, Effect.pass, Instr.argv?, hl]
  all_goals
    obtain rfl := Option.some.inj h
    simp only [enterInflight, slotHeld, runSubmit, taskSucceeded, taskFailed,
      retryCheck, markRetried, requestRetry, toSubmitFailed, markCancelled,
      taskCrashed, releaseSlot,
      leaveInflight, note, emitProgress, finishIfDone, unregister, dropContext,
        onRetryRequested, fired,
      finalizeRetry, finalizeRetryWrite, registerCycle, newContext, preSubmitStart,
        preSubmitRun, preSubmitOk,
      launchCycle, readBlocked, readPrevious, makeTasks, checkFinished, gateReject, vanished]
    repeat' split
    all_goals simp [Effect.pass, Instr.argv?]

theorem exec_carries (hx : x.Carries cyc) (hk : cyc.Keeps) (h : exec P o c cyc w x = some e) :
    (∀ y ∈ e.code, y.Carries cyc) ∧
      (∀ code ∈ e.spawned, ∀ y ∈ code, y.Carries cyc) ∧ e.cyc.Keeps := by
  have hkeyed := exec_keyed h
  have hpass : ∀ y : Instr, y.argv? = none ∨ y.argv? = x.argv? → y.Carries cyc :=
    fun y hy k argv hka => by
    rcases hy with hy | hy
    · rw [hy] at hka
      cases hka
    · exact hx k argv (hy ▸ hka)
  rcases hh : x.hands with - | -
  · obtain ⟨hcode, hspawned, hpend⟩ := exec_argvs hh h
    refine ⟨fun y hy => hpass y (hcode y hy), fun code hc y hy => hpass y (hspawned code hc y hy),
      fun k entry hentry => ?_⟩
    exact (hk k entry (hpend ▸ hentry)).congr hkeyed
  cases x
  case schedule k a =>
    obtain rfl := Option.some.inj h
    refine ⟨by simp [scheduleRetry, Effect.pass],
      by simp [scheduleRetry, Effect.pass], fun k' entry hentry => ?_⟩
    simp only [scheduleRetry, Cycle.addRetry, Dict.get?_set] at hentry
    split at hentry
    case isTrue heq =>
      obtain rfl := heq
      obtain rfl := Option.some.inj hentry
      exact hx k' a.argv rfl
    case isFalse => exact hk k' entry hentry
  case fire k =>
    obtain rfl := Option.some.inj h
    rw [fire]
    split
    case h_1 => exact ⟨by simp [Effect.pass], by simp [Effect.pass], hk⟩
    case h_2 entry cyc' hpop =>
      obtain ⟨hitem, hkeeps⟩ := keeps_popRetry hk hpop
      refine ⟨fun y hy k' argv hka => ?_, by simp [Effect.pass], hkeeps⟩
      obtain rfl := List.mem_singleton.mp hy
      obtain ⟨rfl, rfl⟩ := Prod.mk.inj (Option.some.inj hka)
      exact hitem
  case fanOut todo =>
    obtain rfl := Option.some.inj h
    cases todo with
    | nil => exact ⟨by simp [fanOut, Effect.pass], by simp [fanOut, Effect.pass], hk⟩
    | cons r todo =>
      refine ⟨fun y hy => ?_, fun code hc y hy k argv hka => ?_, hk⟩
      · obtain rfl := List.mem_singleton.mp hy
        exact hpass _ (.inl rfl)
      · obtain rfl := List.mem_singleton.mp hc
        rcases List.mem_pair.mp hy with rfl | rfl
        · obtain ⟨rfl, rfl⟩ := Prod.mk.inj (Option.some.inj hka)
          rfl
        · cases hka
  all_goals cases hh

end Carrying

/-- **Every task runs the argv of its job**: the code of the threads and the retry entries carry
it. -/
structure Carrying (w : Shared) (ts : List Thread) : Prop where
  code : ∀ t ∈ ts, ∀ cyc : Cycle, w.cycles[t.cycle]? = some cyc → ∀ y ∈ t.code, y.Carries cyc
  entries : ∀ (c : ℕ) (cyc : Cycle), w.cycles[c]? = some cyc → cyc.Keeps

section Carrying

variable {P : Params} {w w' : Shared} {ts ts' : List Thread}

/-- A cycle that is replaced by one over the same items. -/
theorem Carrying.setCycle (h : Carrying w ts) {c : ℕ} {cyc cyc' : Cycle}
    (hc : w.cycles[c]? = some cyc)
    (hkeyed : cyc'.keyed = cyc.keyed) (hkeeps : cyc'.Keeps) : Carrying (w.setCycle c cyc') ts where
  code t ht cyd hd y hy := by
    rw [Shared.cycles_setCycle hc] at hd
    split at hd
    case isTrue heq =>
      obtain rfl := Option.some.inj hd
      exact (h.code t ht cyc (heq ▸ hc) y hy).congr hkeyed
    case isFalse => exact h.code t ht cyd hd y hy
  entries d cyd hd := by
    rw [Shared.cycles_setCycle hc] at hd
    split at hd
    case isTrue =>
      obtain rfl := Option.some.inj hd
      exact hkeeps
    case isFalse => exact h.entries d cyd hd

/-- More threads of a cycle. -/
theorem Carrying.append (h : Carrying w ts) {t : Thread}
    (ht : ∀ cyc : Cycle, w.cycles[t.cycle]? = some cyc → ∀ y ∈ t.code, y.Carries cyc) :
    Carrying w (ts ++ [t]) where
  code t' ht' cyc hc y hy := by
    rcases List.mem_append.mp ht' with ht' | ht'
    · exact h.code t' ht' cyc hc y hy
    · obtain rfl := List.mem_singleton.mp ht'
      exact ht cyc hc y hy
  entries := h.entries

/-- **A step keeps the argvs with the tasks.** -/
theorem Carrying.step (h : Carrying w ts)
    (known : ∀ t ∈ ts, t.cycle < w.cycles.length) {ran : Option ℕ}
    (hs : Stepped P w ts ran w' ts') : Carrying w' ts' := by
  cases hs with
  | @thread i o t x rest cyc e ht hcode hcyc he =>
    have hmem := List.mem_of_getElem? ht
    have hall := h.code t hmem cyc hcyc
    rw [hcode] at hall
    obtain ⟨hx, hrest⟩ := List.forall_mem_cons.mp hall
    obtain ⟨hnext, hspawned, hkeeps⟩ := exec_carries hx (h.entries _ _ hcyc) he
    have hkeyed := exec_keyed he
    have hset : Carrying (w.setCycle t.cycle e.cyc) ts := h.setCycle hcyc hkeyed hkeeps
    refine ⟨fun t' ht' cyd hd y hy => ?_, hset.entries⟩
    rcases mem_replaceAt ht' with ht' | ht'
    · exact hset.code t' ht' cyd hd y hy
    have hcyd : t'.cycle = t.cycle → y.Carries cyc → y.Carries cyd := fun heq hy => by
      have hget : (w.setCycle t.cycle e.cyc).cycles[t.cycle]? = some e.cyc := by
        rw [Shared.cycles_setCycle hcyc, if_pos rfl]
      obtain rfl := Option.some.inj (hget.symm.trans (heq ▸ hd))
      exact hy.congr hkeyed
    rcases List.mem_cons.mp ht' with rfl | ht'
    · rcases List.mem_append.mp hy with hy | hy
      · exact hcyd rfl (hnext y hy)
      · exact hcyd rfl (hrest y hy)
    · obtain ⟨code, hc, rfl⟩ := List.mem_map.mp ht'
      exact hcyd rfl (hspawned code hc y hy)
  | @submit cyc preSubmit hact hnodup hcyc =>
    obtain ⟨keyed, maxRetry, slotLimit, rfl⟩ := hcyc
    have hget : ∀ (d : ℕ) (cyd : Cycle),
      (w.cycles ++ [{ keyed, maxRetry, slotLimit : Cycle }])[d]? = some cyd →
        w.cycles[d]? = some cyd ∨ cyd = { keyed, maxRetry, slotLimit } := fun d cyd hd => by
      rcases Nat.lt_or_ge d w.cycles.length with hlt | hge
      · exact .inl (by rwa [List.getElem?_append_left hlt] at hd)
      · rw [List.getElem?_append_right hge, List.getElem?_singleton] at hd
        split at hd
        case isTrue => exact .inr (Option.some.inj hd).symm
        case isFalse => cases hd
    refine Carrying.append ⟨fun t ht cyd hd y hy => ?_, fun d cyd hd => ?_⟩
      fun cyd hd y hy k argv hka => ?_
    · rw [List.getElem?_append_left (known t ht)] at hd
      exact h.code t ht cyd hd y hy
    · rcases hget d cyd hd with hd | rfl
      · exact h.entries d cyd hd
      · intro k entry hentry
        simp at hentry
    · obtain rfl := List.mem_singleton.mp hy
      cases hka
  | @cancel c cyc scope hc => cases scope <;> exact h.setCycle hc rfl (h.entries c cyc hc)
  | @abort c cyc scope how reason hc =>
    obtain ⟨-, -, pend, settled, heq⟩ := Cycle.popRetries_spec how (cyc.abortedKeys scope) cyc
    refine (h.setCycle hc (by rw [heq]) (keeps_popRetries how _ (h.entries c cyc hc))).append
      fun cyd hd y hy => ?_
    obtain ⟨k, -, rfl⟩ := List.mem_map.mp hy
    exact fun k argv hka => by cases hka
  | write | flags => exact ⟨h.code, h.entries⟩

end Carrying

/-! ## The lines along a run -/

/-- **The lines and the argvs agree**: every line was made by joining, the argvs to be written back
are those of the cycle, and the records of an unfinished cycle have the lines of its argvs. -/
structure Lined (P : Params) (w : Shared) (ts : List Thread) : Prop where
  joined : ∀ k r, w.store.job? P.jobsetId k = some r → ∃ argv, r.command = P.join argv
  items : ∀ t ∈ ts, ∀ cyc : Cycle, w.cycles[t.cycle]? = some cyc →
    ∀ y ∈ t.code, ∀ ki ∈ y.items, ki ∈ cyc.keyed
  keyed : ∀ (c : ℕ) (cyc : Cycle), w.cycles[c]? = some cyc → cyc.finished = false →
    ∀ ki ∈ cyc.keyed, ∀ r, w.store.job? P.jobsetId ki.1 = some r → r.command = P.join ki.2

/-- **A step that starts no cycle and makes no record.** -/
structure Framed (P : Params) (w : Shared) (ts : List Thread) (w' : Shared)
    (ts' : List Thread) : Prop where
  lines : SameLines P.jobsetId w.store w'.store
  cycles : ∀ (c : ℕ) (cyc' : Cycle), w'.cycles[c]? = some cyc' →
    ∃ cyc : Cycle, w.cycles[c]? = some cyc ∧ cyc'.keyed = cyc.keyed ∧
      (cyc'.finished = false → cyc.finished = false)
  items : ∀ t' ∈ ts', ∀ y' ∈ t'.code, ∀ ki ∈ y'.items,
    (∃ t ∈ ts, t.cycle = t'.cycle ∧ ∃ y ∈ t.code, ki ∈ y.items) ∨
      ∃ cyc : Cycle, w.cycles[t'.cycle]? = some cyc ∧ ki ∈ cyc.keyed

section Frames

variable {P : Params} {w w' : Shared} {ts ts' : List Thread} {s s' : State}

theorem Lined.framed (L : Lined P w ts) (F : Framed P w ts w' ts') : Lined P w' ts' where
  joined k r' hr' := by
    obtain ⟨r, hr, heq⟩ := F.lines k r' hr'
    rw [heq]
    exact L.joined k r hr
  items t' ht' cyc' hc' y' hy' ki hki := by
    obtain ⟨cyc, hc, hkeyed, -⟩ := F.cycles _ cyc' hc'
    rw [hkeyed]
    obtain ⟨t, ht, heq, y, hy, hki⟩ | ⟨cyd, hd, hki⟩ := F.items t' ht' y' hy' ki hki
    · exact L.items t ht cyc (heq ▸ hc) y hy ki hki
    · obtain rfl := Option.some.inj (hc.symm.trans hd)
      exact hki
  keyed c cyc' hc' hf ki hki r' hr' := by
    obtain ⟨cyc, hc, hkeyed, hfin⟩ := F.cycles c cyc' hc'
    obtain ⟨r, hr, heq⟩ := F.lines _ r' hr'
    rw [heq]
    exact L.keyed c cyc hc (hfin hf) ki (hkeyed ▸ hki) r hr

theorem framed_store (hl : SameLines P.jobsetId w.store w'.store) (hc : w'.cycles = w.cycles) :
    Framed P w ts w' ts where
  lines := hl
  cycles _ cyc' h := ⟨cyc', hc ▸ h, rfl, id⟩
  items t' ht' y' hy' _ hki := .inl ⟨t', ht', rfl, y', hy', hki⟩

theorem framed_setCycle {c : ℕ} {cyc cyc' : Cycle} (hc : w.cycles[c]? = some cyc)
    (hkeyed : cyc'.keyed = cyc.keyed) (hf : cyc'.finished = cyc.finished)
    (hts : ∀ t ∈ ts', t ∈ ts ∨ ∀ y ∈ t.code, y.items = []) :
    Framed P w ts (w.setCycle c cyc') ts' where
  lines := .refl _ _
  cycles d cyd hd := by
    rw [Shared.cycles_setCycle hc] at hd
    split at hd
    case isTrue heq =>
      obtain rfl := Option.some.inj hd
      exact ⟨cyc, heq ▸ hc, hkeyed, fun h => hf ▸ h⟩
    case isFalse => exact ⟨cyd, hd, rfl, id⟩
  items t' ht' y' hy' ki hki := by
    rcases hts t' ht' with ht | hno
    · exact .inl ⟨t', ht, rfl, y', hy', hki⟩
    · rw [hno y' hy'] at hki
      cases hki

theorem cancelScope_framed (w : Shared) (ts : List Thread) (c : ℕ) (scope : Scope) :
    Framed P w ts (w.cancelScope c scope) ts := by
  rw [Shared.cancelScope]
  split
  case h_1 => exact framed_store (.refl _ _) rfl
  case h_2 hc => cases scope <;> exact framed_setCycle hc rfl rfl fun t ht => .inl ht

theorem abortRetries_framed (w : Shared) (ts : List Thread) (c : ℕ) (scope : Scope)
    (how : Settlement)
    (reason : String) :
    Framed P w ts (w.abortRetries c scope how reason).1
        (ts ++ (w.abortRetries c scope how reason).2) := by
  rw [Shared.abortRetries]
  split
  case h_1 =>
    rw [List.append_nil]
    exact framed_store (.refl _ _) rfl
  case h_2 cyc hc =>
    obtain ⟨-, -, pend, settled, heq⟩ :=
      Cycle.popRetries_spec how (cyc.pendingRetries.keys.filter scope.Covers) cyc
    refine framed_setCycle hc (by rw [heq]) (by rw [heq]) fun t ht => ?_
    refine (List.mem_append.mp ht).imp_right fun ht y hy => ?_
    obtain rfl := List.mem_singleton.mp ht
    obtain ⟨k, -, rfl⟩ := List.mem_map.mp hy
    rfl

theorem stepKill_framed {j : ℕ} {timeout : Bool} (h : s.stepKill j timeout = some s') :
    Framed P s.shared s.threads s'.shared s'.threads := by
  rw [State.stepKill] at h
  split at h
  case h_1 => cases h
  case h_2 kl hkl =>
    split at h
    case h_3 acts c todo _ =>
      obtain rfl := Option.some.inj h
      exact cancelScope_framed s.shared s.threads c kl.scope
    case h_4 acts c todo _ =>
      obtain rfl := Option.some.inj h
      exact abortRetries_framed s.shared s.threads c kl.scope .aborted "KILLED"
    case h_6 =>
      split at h
      · obtain rfl := Option.some.inj h; exact framed_store (.refl _ _) rfl
      · split at h
        · obtain rfl := Option.some.inj h; exact framed_store (.refl _ _) rfl
        · cases h
    case h_8 => cases h
    all_goals obtain rfl := Option.some.inj h; exact framed_store (.refl _ _) rfl

/-- **An instruction keeps the lines**: the argvs that its reset writes back are those of its cycle,
which has not finished. -/
theorem stepThread_framed (L : Lined P s.shared s.threads) (led : Ledgered s.shared s.threads)
    {i : ℕ} {o : Oracle}
    (h : s.stepThread P i o = some s') : Framed P s.shared s.threads s'.shared s'.threads := by
  rw [State.stepThread] at h
  split at h
  case h_1 => cases h
  case h_2 t ht =>
    split at h
    case h_2 => cases h
    case h_1 x rest cyc hcode hcyc =>
      obtain ⟨e, he, rfl⟩ := Option.map_eq_some_iff.mp h
      have hmem := List.mem_of_getElem? ht
      have hlt : t.cycle < s.shared.cycles.length := led.known _ hmem
      have hx : x ∈ t.code := hcode ▸ List.mem_cons_self
      obtain ⟨hitems, hspawned⟩ := exec_items he
      refine ⟨fun k r' hr' => ?_, fun d cyd hd => ?_, fun t' ht' y' hy' ki hki => ?_⟩
      · obtain ⟨r, hr, heq | ⟨argv, hargv, heq⟩⟩ := exec_lines led.placed he hr'
        · exact ⟨r, hr, heq⟩
        refine ⟨r, hr, heq.trans
          (L.keyed t.cycle cyc hcyc ?_ _ (L.items t hmem cyc hcyc x hx _ hargv) r hr).symm⟩
        -- an instruction that has an argv holds the unit of its job
        by_contra hf
        have hheld := ((led.cycles _ _ hcyc).idle (by simpa using hf)).1
        have hle : x.units cyc.keys ≤ held cyc.keys t.cycle s.threads :=
          units_le_held hmem rfl hcode
        rw [hheld] at hle
        simpa using Multiset.mem_of_le hle (mem_units_of_items hargv)
      · simp only [Shared.apply, List.getElem?_set, hlt, if_true] at hd
        split at hd
        case isTrue heq =>
          obtain rfl := Option.some.inj hd
          refine ⟨cyc, heq ▸ hcyc, exec_keyed he, fun hf => ?_⟩
          rcases hfin : cyc.finished with - | -
          · rfl
          · exact (exec_finished hfin he).symm.trans hf
        case isFalse => exact ⟨cyd, hd, rfl, id⟩
      · rcases mem_replaceAt ht' with ht' | ht'
        · exact .inl ⟨t', ht', rfl, y', hy', hki⟩
        rcases List.mem_cons.mp ht' with rfl | ht'
        · rcases List.mem_append.mp hy' with hy' | hy'
          · rcases hitems y' hy' ki hki with hki | hki
            · exact .inl ⟨t, hmem, rfl, x, hx, hki⟩
            · exact .inr ⟨cyc, hcyc, hki⟩
          · exact .inl ⟨t, hmem, rfl, y', hcode ▸ List.mem_cons_of_mem _ hy', hki⟩
        · obtain ⟨code, hcode, rfl⟩ := List.mem_map.mp ht'
          rw [hspawned code hcode y' hy'] at hki
          cases hki

theorem write_framed {α : Type} {out : Except StoreError (α × InMemoryStore)}
    (hl : ∀ a st, out = .ok (a, st) → SameLines P.jobsetId s.shared.store st)
    (h : s.write out = some s') :
    Framed P s.shared s.threads s'.shared s'.threads := by
  rcases out with e | ⟨a, st⟩
  · cases h
  · obtain rfl := Option.some.inj h
    exact framed_store (hl a st rfl) rfl

end Frames

/-! ## What starts a cycle or makes a record -/

def Act.isNew : Act → Bool
  | submit .. | addJob .. | replaceJob .. => true
  | _ => false

/-- The action puts another record at the key. -/
def Act.Edits (k : Key) : Act → Prop
  | addJob k' _ _ _ _ | replaceJob k' _ _ _ _ => k' = k
  | _ => False

/-- The line of a record that the action makes is joined from an argv. -/
def Act.Joins (P : Params) : Act → Prop
  | addJob _ command _ _ _ | replaceJob _ command _ _ _ => ∃ argv, command = P.join argv
  | _ => True

section Steps

variable {P : Params} {s s' : State}

theorem step_framed (L : Lined P s.shared s.threads) (led : Ledgered s.shared s.threads) {a : Act}
    (hs : State.step P s a = some s') (hnew : a.isNew = false) :
    Framed P s.shared s.threads s'.shared s'.threads := by
  cases a with
  | thread i o => exact stepThread_framed L led hs
  | submit | addJob | replaceJob => cases hnew
  | cancelSubmit =>
    obtain ⟨c, -, rfl⟩ := Option.map_eq_some_iff.mp hs
    exact cancelScope_framed s.shared s.threads c none
  | abortRetries c how =>
    simp only [State.step] at hs
    split at hs
    case h_1 => cases hs
    case h_2 =>
      split at hs
      case isTrue =>
        obtain rfl := Option.some.inj hs
        exact abortRetries_framed s.shared s.threads c none how _
      case isFalse => cases hs
  | shutdown | newKill =>
    obtain rfl := Option.some.inj hs
    exact framed_store (.refl _ _) rfl
  | kill j timeout => exact stepKill_framed hs
  | refuseKill j =>
    simp only [State.step] at hs
    split at hs
    · obtain rfl := Option.some.inj hs
      exact framed_store (.refl _ _) rfl
    · cases hs
  | poll rec st ru cc now =>
    simp only [State.step] at hs
    split at hs
    case isFalse => cases hs
    case isTrue =>
      split at hs
      case h_1 => cases hs
      case h_2 fields hmerge =>
        refine write_framed (fun r st' hok => sameLines_transition led.placed hok ?_) hs
        simp only [mergeFields] at hmerge
        split at hmerge
        case isTrue =>
          obtain rfl := Option.some.inj hmerge
          cases cc <;> simp
        case isFalse => cases hmerge
  | pollLost | detectLost | markExit | markFlag =>
    simp only [State.step] at hs
    split at hs
    case isFalse => cases hs
    case isTrue =>
      exact write_framed (fun r st' hok => sameLines_transition led.placed hok (by simp)) hs
  | setUserData k data now =>
    exact write_framed (fun r st' hok => sameLines_transition led.placed hok (by simp)) hs
  | removeJob k =>
    refine write_framed (fun r st hok => ?_) hs
    obtain ⟨-, hd⟩ | ⟨old, st', -, hd, hw⟩ :=
      InMemoryStore.dropRec_cases s.shared.store P.jobsetId k
    · simp [InMemoryStore.storeDeleteJob, hd] at hok
    · obtain ⟨-, rfl⟩ : old = r ∧ st' = st := by simpa [InMemoryStore.storeDeleteJob, hd] using hok
      exact sameLines_wrote hw fun r' hr' => by cases hr'
  | removeJobset =>
    obtain rfl := Option.some.inj hs
    refine framed_store (fun k r' hr' => ?_) rfl
    rw [InMemoryStore.job?_storeDeleteJobset, if_pos rfl] at hr'
    cases hr'

/-- A new cycle has the argvs of its records' lines. -/
theorem submit_lined (hP : ∀ argv, P.split (P.join argv) = argv) (L : Lined P s.shared s.threads)
    (led : Ledgered s.shared s.threads) (C : Current s.shared s.threads)
    {only : Option (List Ref)} {a b : ℕ}
    {pre : Bool} (h : s.submit P only a b pre = some s') :
    Lined P s'.shared s'.threads ∧ s'.shared.store = s.shared.store := by
  rw [State.submit] at h
  split at h
  case isTrue => cases h
  case isFalse hact =>
    split at h
    case h_1 => cases h
    case h_2 targets ht =>
      obtain rfl := Option.some.inj h
      refine ⟨⟨L.joined, fun t ht cyc hc y hy ki hki => ?_, fun c cyc hc hf ki hki r hr => ?_⟩, rfl⟩
      · rcases List.mem_append.mp ht with ht | ht
        · rw [List.getElem?_append_left (led.known t ht)] at hc
          exact L.items t ht cyc hc y hy ki hki
        · obtain rfl := List.mem_singleton.mp ht
          obtain rfl := List.mem_singleton.mp hy
          cases hki
      · rcases Nat.lt_or_ge c s.shared.cycles.length with hlt | hge
        · rw [List.getElem?_append_left hlt] at hc
          exact absurd (.inl (C.isActive hc hf)) hact
        · rw [List.getElem?_append_right hge, List.getElem?_singleton] at hc
          split at hc
          case isFalse => cases hc
          case isTrue =>
            obtain rfl := Option.some.inj hc
            obtain ⟨r₀, hr₀, rfl⟩ := List.mem_map.mp hki
            obtain rfl :=
              Option.some.inj ((job?_of_submitTargets led.placed ht r₀ hr₀).symm.trans hr)
            obtain ⟨argv, hargv⟩ := L.joined _ _ hr
            rw [hargv, hP]

/-- A record that is made while no cycle is active. -/
theorem made_lined (L : Lined P s.shared s.threads) (C : Current s.shared s.threads) {k : Key}
    {out : Except StoreError (JobRecord × InMemoryStore)}
    (hw : ∀ r st, out = .ok (r, st) → (∃ argv, r.command = P.join argv) ∧
      s.shared.store.Wrote P.jobsetId k (some r) st)
    (hact : ¬s.shared.isActive = true)
    (h : (s.write out).map (fun s => { s with shared := { s.shared with
      nextGen := s.shared.nextGen + 1 } }) = some s') :
    Lined P s'.shared s'.threads ∧ ∀ k', k ≠ k' →
      s'.shared.store.job? P.jobsetId k' = s.shared.store.job? P.jobsetId k' := by
  rcases out with e | ⟨r, st⟩
  · cases h
  · obtain rfl := Option.some.inj h
    obtain ⟨hjoined, hwr⟩ := hw r st rfl
    refine ⟨⟨fun k' r' hr' => ?_, L.items, fun c cyc hc hf => absurd (C.isActive hc hf) hact⟩,
      fun k' hne => ?_⟩
    · rw [hwr.job?] at hr'
      split at hr'
      case isTrue =>
        obtain rfl := Option.some.inj hr'
        exact hjoined
      case isFalse => exact L.joined k' r' hr'
    · rw [hwr.job?, if_neg fun hc => hne hc.2.symm]

/-- **One step**: what it does to the lines. -/
theorem step_lined (hP : ∀ argv, P.split (P.join argv) = argv) (L : Lined P s.shared s.threads)
    (led : Ledgered s.shared s.threads) (C : Current s.shared s.threads) {a : Act} (ha : a.Joins P)
    (hs : State.step P s a = some s') :
    Lined P s'.shared s'.threads ∧ ∀ k r', ¬ a.Edits k →
      s'.shared.store.job? P.jobsetId k = some r' →
      ∃ r, s.shared.store.job? P.jobsetId k = some r ∧ r'.command = r.command := by
  rcases hnew : a.isNew with - | -
  · have F := step_framed L led hs hnew
    exact ⟨L.framed F, fun k r' _ => F.lines k r'⟩
  cases a with
  | submit only m n pre =>
    obtain ⟨hL, hstore⟩ := submit_lined hP L led C hs
    exact ⟨hL, fun k r' _ hr' => ⟨r', hstore ▸ hr', rfl⟩⟩
  | addJob k command data cwd now =>
    simp only [State.step] at hs
    split at hs
    case isTrue => cases hs
    case isFalse hact =>
      obtain ⟨hL, hother⟩ := made_lined L C (k := k) (fun r st hok => by
        obtain ⟨rfl, -, hw⟩ := InMemoryStore.storeAddJob_ok hok
        exact ⟨ha, hw⟩) hact hs
      exact ⟨hL, fun k' r' hne hr' => ⟨r', hother k' hne ▸ hr', rfl⟩⟩
  | replaceJob k command data cwd now =>
    simp only [State.step] at hs
    split at hs
    case isTrue => cases hs
    case isFalse hact =>
      obtain ⟨hL, hother⟩ := made_lined L C (k := k) (fun r st hok => by
        obtain ⟨old, -, rfl, hw⟩ := InMemoryStore.updateJob_ok hok
        exact ⟨ha, hw⟩) hact hs
      exact ⟨hL, fun k' r' hne hr' => ⟨r', hother k' hne ▸ hr', rfl⟩⟩
  | _ => cases hnew

end Steps

/-! ## Runs -/

/-- The submission system of a jobset whose lines were joined from argvs, as `build_records` joins
them. -/
def joined (P : Params) : System State Act where
  init s := (system P).init s ∧
    ∀ k r, s.shared.store.job? P.jobsetId k = some r → ∃ argv, r.command = P.join argv
  step := State.step P

section Runs

variable {P : Params} {s s' : State}

theorem reachable_of_joined {C : State → Act → Prop} (h : (joined P).ReachableUnder C s) :
    (system P).ReachableUnder C s := by
  induction h with
  | init h => exact .init h.1
  | step _ hC hs ih => exact .step ih hC hs

theorem lined_of_reachable (hP : ∀ argv, P.split (P.join argv) = argv)
    (h : (joined P).ReachableUnder (fun _ a => a.Joins P) s) : Lined P s.shared s.threads := by
  refine h.invariant (I := fun s => Lined P s.shared s.threads) (fun s hs => ?_)
    fun s a s' hreach L ha hs => ?_
  · obtain ⟨⟨hinit, hts, -⟩, hjoined⟩ := hs
    exact ⟨hjoined, by simp [hts], fun c cyc hc => by simp [hinit.cycles] at hc⟩
  · have hr := reachable_of_joined hreach
    exact (step_lined hP L (ledgered hr) (current_of_reachable hr) ha hs).1

theorem carrying_of_reachable {C : State → Act → Prop} (h : (system P).ReachableUnder C s) :
    Carrying s.shared s.threads := by
  refine h.invariant (I := fun s => Carrying s.shared s.threads) (fun s hs => ?_)
    fun s a s' hr hc _ hs => ?_
  · obtain ⟨hinit, hts, -⟩ := hs
    exact ⟨by simp [hts], fun c cyc hc => by simp [hinit.cycles] at hc⟩
  · have led := ledgered hr
    exact hc.step led.known (step_cases led.placed hs)

theorem reachable_run :
    ∀ {acts : List Act} {s s' : State}, (joined P).ReachableUnder (fun _ a => a.Joins P) s →
    (joined P).run s acts = some s' → (∀ a ∈ acts, a.Joins P) →
    (joined P).ReachableUnder (fun _ a => a.Joins P) s'
  | [], s, s', h, hrun, _ => by
      obtain rfl := Option.some.inj hrun
      exact h
  | a :: acts, s, s', h, hrun, hacts => by
      obtain ⟨s₁, hs, hrun⟩ := Option.bind_eq_some_iff.mp hrun
      obtain ⟨ha, hacts⟩ := List.forall_mem_cons.mp hacts
      exact reachable_run (.step h ha hs) hrun hacts

/-- Until another record is put at the key, the record there has the line it had. -/
theorem run_lines (hP : ∀ argv, P.split (P.join argv) = argv) {k : Key} :
    ∀ {acts : List Act} {s s' : State}, (joined P).ReachableUnder (fun _ a => a.Joins P) s →
      (joined P).run s acts = some s' → (∀ a ∈ acts, a.Joins P ∧ ¬ a.Edits k) →
      ∀ r', s'.shared.store.job? P.jobsetId k = some r' →
        ∃ r, s.shared.store.job? P.jobsetId k = some r ∧ r'.command = r.command
  | [], s, s', _, hrun, _, r', hr' => by
      obtain rfl := Option.some.inj hrun
      exact ⟨r', hr', rfl⟩
  | a :: acts, s, s', h, hrun, hacts, r', hr' => by
      obtain ⟨s₁, hs, hrun⟩ := Option.bind_eq_some_iff.mp hrun
      obtain ⟨⟨hjoins, hedits⟩, hacts⟩ := List.forall_mem_cons.mp hacts
      obtain ⟨r₁, hr₁, heq₁⟩ := run_lines hP (.step h hjoins hs) hrun hacts r' hr'
      have hr := reachable_of_joined h
      obtain ⟨r, hr, heq⟩ :=
        (step_lined hP (lined_of_reachable hP h) (ledgered hr) (current_of_reachable hr)
        hjoins hs).2 k r₁ hedits hr₁
      exact ⟨r, hr, heq₁.trans heq⟩

end Runs

/-- `shlex.split`; a submission with a line that it does not take is refused. -/
def splitLine (line : String) : List String :=
  match shlexSplit line with
  | .ok argv => argv
  | .error _ => []

theorem splitLine_join (argv : List String) : splitLine (shlexJoin argv) = argv := by
  rw [splitLine, shlexSplit_join]

/-- The job and the argv of the attempt that the thread is about to make. -/
def Thread.attempting (t : Thread) : Option (Key × List String) :=
  match t.code with
  | .running k attempt :: _ => some (k, attempt.argv)
  | _ => none

theorem code_of_attempting {t : Thread} {k : Key} {argv : List String}
    (h : t.attempting = some (k, argv)) :
    ∃ attempt rest, t.code = .running k attempt :: rest ∧ attempt.argv = argv := by
  rw [Thread.attempting] at h
  split at h
  case h_1 k' attempt rest hcode =>
    obtain ⟨rfl, rfl⟩ := Prod.mk.inj (Option.some.inj h)
    exact ⟨attempt, rest, hcode, rfl⟩
  case h_2 => cases h

/-- **An attempt runs the line of its record**: in every run, whatever polls, kills, edits and
removals do between, a task that is about to run the wrapper has the argv that its cycle was given
for the job, which the line of the record is joined from and splits into; and the line stays the
same, through all cycles and resets, until another record is put at the key. -/
theorem attempts_run_line {P : Params} (hsplit : P.split = splitLine)
    (hjoin : P.join = shlexJoin) {s : State}
    (h : (joined P).ReachableUnder (fun _ a => a.Joins P) s) :
    (∀ t ∈ s.threads, ∀ k argv, t.attempting = some (k, argv) →
        (∃ cyc : Cycle, s.shared.cycles[t.cycle]? = some cyc ∧ cyc.argvOf k = some argv) ∧
        ∀ r, s.shared.store.job? P.jobsetId k = some r →
          r.command = shlexJoin argv ∧ shlexSplit r.command = .ok argv) ∧
      ∀ acts s' k, (joined P).run s acts = some s' → (∀ a ∈ acts, a.Joins P ∧ ¬ a.Edits k) →
        ∀ r', s'.shared.store.job? P.jobsetId k = some r' →
          ∃ r, s.shared.store.job? P.jobsetId k = some r ∧ r'.command = r.command := by
  have hP : ∀ argv, P.split (P.join argv) = argv := by
    rw [hsplit, hjoin]
    exact splitLine_join
  refine ⟨fun t ht k argv hk => ?_, fun acts s' k hrun hacts => run_lines hP h hrun hacts⟩
  have L := lined_of_reachable hP h
  have hr := reachable_of_joined h
  have led := ledgered hr
  obtain ⟨cyc, hcyc⟩ : ∃ cyc, s.shared.cycles[t.cycle]? = some cyc :=
    ⟨_, List.getElem?_eq_getElem (led.known t ht)⟩
  have A := led.cycles _ _ hcyc
  obtain ⟨attempt, rest, hcode, rfl⟩ := code_of_attempting hk
  have hheld : k ∈ held cyc.keys t.cycle s.threads :=
    Multiset.mem_of_le (units_le_held ht rfl hcode) (Multiset.mem_singleton_self k)
  have hf : cyc.finished = false := by
    by_contra hf
    rw [(A.idle (by simpa using hf)).1] at hheld
    cases hheld
  have hmem : k ∈ (cyc.keys : Multiset Key) := by
    rw [← A.units, Multiset.mem_add, Multiset.mem_add]
    exact .inl (.inr hheld)
  obtain ⟨ki, hki, rfl⟩ := List.mem_map.mp (Multiset.mem_coe.mp hmem)
  obtain ⟨found, hfound⟩ : ∃ found, cyc.keyed.find? (fun x => x.1 = ki.1) = some found :=
    Option.isSome_iff_exists.mp (List.find?_isSome.mpr ⟨ki, hki, by simp⟩)
  have hkey : found.1 = ki.1 := by simpa using List.find?_some hfound
  have hitem : cyc.argvOf ki.1 = some found.2 := by rw [Cycle.argvOf, hfound]; rfl
  -- what the task carries is the item of its key
  have hargv : attempt.argv = found.2 := by
    have hcarried := (carrying_of_reachable hr).code t ht cyc hcyc (.running ki.1 attempt)
      (hcode ▸ List.mem_cons_self) ki.1 attempt.argv rfl
    rwa [Cycle.Item, hitem] at hcarried
  rw [hargv]
  refine ⟨⟨cyc, hcyc, hitem⟩, fun r hr => ?_⟩
  have hline : r.command = shlexJoin found.2 := by
    rw [← hjoin]
    exact L.keyed _ _ hcyc hf found (List.mem_of_find?_eq_some hfound) r (hkey ▸ hr)
  exact ⟨hline, by rw [hline, shlexSplit_join]⟩

/-- The parameters of `oneJob`, with the split and the join of the program. -/
def shlexParams : Params := { oneJobParams with split := splitLine, join := shlexJoin }

theorem joined_oneJob : (joined shlexParams).init oneJob := by
  obtain ⟨hinit, hthreads, hkills⟩ := oneJob_init
  refine ⟨⟨⟨hinit.cycles, hinit.contexts, hinit.gate, hinit.log, hinit.placed, hinit.gens⟩,
    hthreads, hkills⟩, fun k r hr => ⟨["submit", "a"], ?_⟩⟩
  have hrecord : r = oneJobRecord := by
    simp only [shlexParams, oneJobParams, oneJob, InMemoryStore.job?, Dict.get?_set, if_true,
      Option.bind_some] at hr
    split at hr
    case isTrue => exact (Option.some.inj hr).symm
    case isFalse => cases hr
  rw [hrecord]
  decide +kernel

/-- The run until the second attempt of the job. -/
def oneJobRetryStarted : List Act := oneJobRetrying ++ threadSteps 1 2 ++ threadSteps 4 6

theorem joins_oneJobRetryStarted : ∀ a ∈ oneJobRetryStarted, a.Joins shlexParams := by
  simp +contextual [oneJobRetryStarted, oneJobRetrying, threadSteps, submitResult,
    Act.Joins, or_imp]

/-- The second attempt of a job, after a retry. -/
theorem attempts_run_line_retried : ∃ (s : State) (t : Thread), t ∈ s.threads ∧
    t.attempting = some ("a", ["submit", "a"]) ∧
    (∃ cyc : Cycle, s.shared.cycles[t.cycle]? = some cyc ∧ cyc.argvOf "a" = some ["submit", "a"]) ∧
      ∀ r, s.shared.store.job? "js" "a" = some r →
        r.command = shlexJoin ["submit", "a"] ∧ shlexSplit r.command = .ok ["submit", "a"] := by
  have hrun : (((joined shlexParams).run oneJob oneJobRetryStarted).bind fun s =>
      s.threads[4]?).bind Thread.attempting = some ("a", ["submit", "a"]) := by decide +kernel
  obtain ⟨t, ht, hattempting⟩ := Option.bind_eq_some_iff.mp hrun
  obtain ⟨s, hs, ht⟩ := Option.bind_eq_some_iff.mp ht
  have hreach := reachable_run (.init joined_oneJob) hs joins_oneJobRetryStarted
  exact ⟨s, t, List.mem_of_getElem? ht, hattempting,
    (attempts_run_line rfl rfl hreach).1 t (List.mem_of_getElem? ht) "a" _ hattempting⟩

end Lsfmgr.Submit
