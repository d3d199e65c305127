import Mathlib
import Lsfmgr.Machinery.Streak
import Lsfmgr.Machinery.Transition
import Lsfmgr.Store.Counts

/-!
# Monitor/Polling — the polling thread, and when it stops by itself

Requests reach the polling thread through a queue; a request and a timeout are one slot each, and a
slot runs to its end before the next one.  A poll queries its jobset and then looks whether there is
anything left to watch: a jobset that is gone or has ended is no longer polled, and neither is one
in which nothing has been under way for two polls in a row.  A poll that fails counts neither way.
-/

namespace Lsfmgr.Monitor.Polling

open Machinery

/-- How the query of a poll ends. -/
inductive Answer
  | result (summary : InMemoryStore.Summary) (changed lost : List JobRecord)
  /-- `JobSetNotFoundError` -/
  | notFound
  | raised (what : String)

/-- The signals of the worker. -/
inductive Signal
  | updated (jobsetId : String) (summary : InMemoryStore.Summary) (changed : List JobRecord)
  | lost (jobsetId : String) (record : JobRecord)
  | error (jobsetId what : String)

/-- A queued call of a slot. -/
inductive Request
  | start (jobsetId : String) (intervalS : ℚ)
  | stop (jobsetId : String)
  | poll (jobsetId : String)

/-- What a poll meets: the answer of its query, and the records it looks at then, `none` where the
read raises. -/
structure View where
  answer : Answer
  remaining : Option (List JobRecord)

/-- What a poll has seen. -/
inductive Verdict
  | gone
  | blind
  | ended
  | idle
  | busy
  deriving DecidableEq

/-- A record that is on LSF or being submitted. -/
def underWay (r : JobRecord) : Bool :=
  r.state.isOnLsf || r.state = .submitting || r.state = .retryWait

/-- Every record has ended, and there is one. -/
def allEnded (records : List JobRecord) : Bool := records ≠ [] && records.all (·.state.isTerminal)

def View.verdict (v : View) : Verdict :=
  match v.answer, v.remaining with
  | .notFound, _ => .gone
  | .raised _, _ | .result .., none => .blind
  | .result .., some records =>
    if allEnded records then .ended else if records.any underWay then .busy else .idle

def maxTimerMs : ℕ := 2147483647

/-- `timer_ms` -/
def timerMs (seconds : ℚ) : ℕ :=
  let ms := seconds * 1000
  if (maxTimerMs : ℚ) ≤ ms then maxTimerMs else ⌊ms + 1 / 2⌋.toNat

/-- `_PollWorker`, its queue and its thread.  `seen` has what the polls of a timer have seen, the
latest first; no step reads it. -/
structure State where
  timers : Dict String ℕ := ∅
  idleCounts : Dict String ℕ := ∅
  interrupted : Bool := false
  finished : Bool := false
  queue : List Request := []
  emitted : List Signal := []
  seen : Dict String (List Verdict) := ∅

namespace State

variable (s : State)

/-- `stop_polling` -/
def stopPolling (jobsetId : String) : State :=
  { s with
    idleCounts := s.idleCounts.erase jobsetId
    timers := s.timers.erase jobsetId
    seen := s.seen.erase jobsetId }

/-- What was seen is noted with the timer. -/
def note (jobsetId : String) (verdict : Verdict) : State :=
  match s.seen.get? jobsetId with
  | some verdicts => { s with seen := s.seen.set jobsetId (verdict :: verdicts) }
  | none => s

/-- `_maybe_auto_stop` -/
def maybeAutoStop (jobsetId : String) (remaining : Option (List JobRecord)) : State :=
  if jobsetId ∉ s.timers.keys then s
  else
    match remaining with
    | none => s
    | some remaining =>
      if allEnded remaining then s.stopPolling jobsetId
      else if remaining.any underWay then { s with idleCounts := s.idleCounts.erase jobsetId }
      else
        let n := (s.idleCounts.get? jobsetId).getD 0 + 1
        let s := { s with idleCounts := s.idleCounts.set jobsetId n }
        if 2 ≤ n then s.stopPolling jobsetId else s

/-- `_poll` -/
def poll (jobsetId : String) (v : View) : State :=
  if s.interrupted then s
  else
    let s := s.note jobsetId v.verdict
    match v.answer with
    | .notFound => s.stopPolling jobsetId
    | .raised what => { s with emitted := s.emitted ++ [.error jobsetId what] }
    | .result summary changed lost =>
      { s with emitted := s.emitted ++ Signal.updated jobsetId summary changed ::
        lost.map (Signal.lost jobsetId) }
        |>.maybeAutoStop jobsetId v.remaining

/-- `start_polling` of the worker -/
def startPolling (jobsetId : String) (intervalS : ℚ) (v : View) : State :=
  if s.interrupted then s
  else
    let ms := timerMs intervalS
    if s.timers.get? jobsetId = some ms then s
    else
      let s := s.stopPolling jobsetId
      { s with timers := s.timers.set jobsetId ms, seen := s.seen.set jobsetId [] }.poll jobsetId v

/-- The slot of a request. -/
def serve (v : View) : Request → State
  | .start jobsetId intervalS => s.startPolling jobsetId intervalS v
  | .stop jobsetId => s.stopPolling jobsetId
  | .poll jobsetId => s.poll jobsetId v

end State

inductive Act
  /-- A public method posts its request. -/
  | post (request : Request)
  /-- The thread takes the first request. -/
  | take (v : View)
  /-- A timer fires. -/
  | timeout (jobsetId : String) (v : View)
  /-- `shutdown` begins. -/
  | interrupt
  /-- The thread ends, and `stop_all` is called. -/
  | finish

def State.step (s : State) : Act → Option State
  | .post request => some { s with queue := s.queue ++ [request] }
  | .take v =>
    match s.queue with
    | [] => none
    | request :: queue => if s.finished then none else some ({ s with queue }.serve v request)
  | .timeout jobsetId v =>
    if s.finished ∨ jobsetId ∉ s.timers.keys then none else some (s.poll jobsetId v)
  | .interrupt => some { s with interrupted := true }
  | .finish =>
    if s.interrupted then some { s with finished := true, timers := ∅, idleCounts := ∅, seen := ∅ }
      else none

def system : System State Act where
  init s := s = {}
  step := State.step

/-! ## What a timer has seen -/

/-- What counts: the polls that were answered. -/
def sighted (verdicts : List Verdict) : List Verdict := verdicts.filter (· ≠ .blind)

/-- The poll is the last one: the jobset is gone, or has ended, or is idle for the second time in a
row. -/
def Stops (verdict : Verdict) (before : List Verdict) : Prop :=
  verdict = .gone ∨ verdict = .ended ∨ verdict = .idle ∧ (sighted before).head? = some .idle

instance (verdict : Verdict) (before : List Verdict) : Decidable (Stops verdict before) :=
  inferInstanceAs (Decidable (_ ∨ _ ∨ _))

/-- There was no reason to stop so far. -/
structure Patient (verdicts : List Verdict) : Prop where
  open' : ∀ v ∈ verdicts, v ≠ .gone ∧ v ≠ .ended
  spaced : (sighted verdicts).IsChain fun a b => ¬ (a = .idle ∧ b = .idle)

theorem patient_nil : Patient [] := ⟨by simp, List.isChain_nil⟩

theorem sighted_cons {verdict : Verdict} (verdicts : List Verdict) (h : verdict ≠ .blind) :
    sighted (verdict :: verdicts) = verdict :: sighted verdicts := by
  simp [sighted, h]

theorem Patient.cons {verdicts : List Verdict} (h : Patient verdicts) {verdict : Verdict}
    (hstops : ¬ Stops verdict verdicts) : Patient (verdict :: verdicts) := by
  simp only [Stops, not_or] at hstops
  obtain ⟨hgone, hended, hidle⟩ := hstops
  refine ⟨List.forall_mem_cons.mpr ⟨⟨hgone, hended⟩, h.open'⟩, ?_⟩
  by_cases hblind : verdict = .blind
  · subst hblind
    exact h.spaced
  · rw [sighted_cons _ hblind, List.isChain_cons]
    refine ⟨fun b hb hboth => hidle ⟨hboth.1, ?_⟩, h.spaced⟩
    rw [Option.mem_def.mp hb, hboth.2]

/-- The idle polls at the end are one or none. -/
theorem Patient.streak_eq {verdicts : List Verdict} (h : Patient verdicts) :
    streak (· = .idle) (sighted verdicts) = if (sighted verdicts).head? = some .idle then 1
        else 0 := by
  have hchain := h.spaced
  cases hs : sighted verdicts with
  | nil => rfl
  | cons a l =>
    rw [hs] at hchain
    by_cases ha : a = .idle
    · subst ha
      rw [List.head?_cons, if_pos rfl, streak_cons_of_pos (p := (· = Verdict.idle)) rfl]
      cases l with
      | nil => rfl
      | cons b l =>
        have hb : ¬ b = .idle := fun hb => (List.isChain_cons_cons.mp hchain).1 ⟨rfl, hb⟩
        rw [streak_cons_of_neg (p := (· = Verdict.idle)) hb]
    · rw [List.head?_cons, if_neg (by simpa using ha),
        streak_cons_of_neg (p := (· = Verdict.idle)) ha]

/-- **The idle count is the streak of idle polls**, and a timer has seen no reason to stop. -/
structure Inv (s : State) : Prop where
  timed : ∀ js, js ∈ s.timers.keys ↔ ∃ verdicts, s.seen.get? js = some verdicts
  bare : ∀ js, js ∉ s.timers.keys → s.idleCounts.get? js = none
  count : ∀ js verdicts, s.seen.get? js = some verdicts →
    (s.idleCounts.get? js).getD 0 = streak (· = .idle) (sighted verdicts)
  patient : ∀ js verdicts, s.seen.get? js = some verdicts → Patient verdicts

theorem inv_init : Inv {} where
  timed js := by simp
  bare js _ := rfl
  count js verdicts h := by simp at h
  patient js verdicts h := by simp at h

variable {s s' : State} {jobsetId : String} {v : View}

/-- A step that leaves the tables alone. -/
theorem Inv.frame (h : Inv s) (ht : s'.timers = s.timers) (hc : s'.idleCounts = s.idleCounts)
    (hs : s'.seen = s.seen) : Inv s' :=
  ⟨ht ▸ hs ▸ h.timed, ht ▸ hc ▸ h.bare, hc ▸ hs ▸ h.count, hs ▸ h.patient⟩

theorem Inv.stopPolling (h : Inv s) (jobsetId : String) : Inv (s.stopPolling jobsetId) where
  timed js := by
    simp only [State.stopPolling, Dict.mem_keys_erase, Dict.get?_erase, h.timed]
    by_cases hjs : js = jobsetId <;> simp [hjs]
  bare js hjs := by
    simp only [State.stopPolling, Dict.mem_keys_erase, Dict.get?_erase] at hjs ⊢
    split
    case isTrue => rfl
    case isFalse hne => exact h.bare js fun hmem => hjs ⟨hne, hmem⟩
  count js verdicts hv := by
    simp only [State.stopPolling, Dict.get?_erase] at hv ⊢
    split at hv
    case isTrue => cases hv
    case isFalse hne =>
      rw [if_neg hne]
      exact h.count js verdicts hv
  patient js verdicts hv := by
    simp only [State.stopPolling, Dict.get?_erase] at hv
    split at hv
    case isTrue => cases hv
    case isFalse => exact h.patient js verdicts hv

/-- A new timer. -/
theorem Inv.newTimer (h : Inv s) (jobsetId : String) (ms : ℕ) : Inv
    { s.stopPolling jobsetId with
      timers := (s.stopPolling jobsetId).timers.set jobsetId ms
      seen := (s.stopPolling jobsetId).seen.set jobsetId [] } := by
  have hstop := h.stopPolling jobsetId
  refine ⟨fun js => ?_, fun js hjs => ?_, fun js verdicts hv => ?_, fun js verdicts hv => ?_⟩
  · simp only [Dict.mem_keys_set, Dict.get?_set, hstop.timed]
    by_cases hjs : js = jobsetId <;> simp [hjs]
  · rw [Dict.mem_keys_set, not_or] at hjs
    exact hstop.bare js hjs.2
  · simp only [Dict.get?_set] at hv
    split at hv
    case isTrue heq =>
      obtain rfl := Option.some.inj hv
      subst heq
      simp [State.stopPolling, sighted]
    case isFalse => exact hstop.count js verdicts hv
  · simp only [Dict.get?_set] at hv
    split at hv
    case isTrue =>
      obtain rfl := Option.some.inj hv
      exact patient_nil
    case isFalse => exact hstop.patient js verdicts hv

/-- **What a poll does to the tables**: nothing if it is not made or the jobset has no timer; else
it ends the timer, or notes what it has seen. -/
inductive Polled (s : State) (jobsetId : String) (v : View) (s' : State) : Prop
  | off : s.interrupted = true → s' = s → Polled s jobsetId v s'
  | bare : jobsetId ∉ s.timers.keys → s'.timers = s.timers → s'.idleCounts = s.idleCounts →
      s'.seen = s.seen → Polled s jobsetId v s'
  | stopped {verdicts : List Verdict} : s.interrupted = false →
      s.seen.get? jobsetId = some verdicts →
      Stops v.verdict verdicts → s'.timers = (s.stopPolling jobsetId).timers →
      Inv s' → Polled s jobsetId v s'
  | watched {verdicts : List Verdict} : s.interrupted = false →
      s.seen.get? jobsetId = some verdicts →
      ¬ Stops v.verdict verdicts → s'.timers = s.timers → Inv s' → Polled s jobsetId v s'

theorem erase_bare (h : Inv s) (hbare : jobsetId ∉ s.timers.keys) :
    s.timers.erase jobsetId = s.timers ∧ s.idleCounts.erase jobsetId = s.idleCounts ∧
      s.seen.erase jobsetId = s.seen := by
  refine ⟨Dict.erase_of_not_mem hbare, Dict.erase_of_not_mem ?_, Dict.erase_of_not_mem ?_⟩
  · exact Dict.get?_eq_none.mp (h.bare _ hbare)
  · rw [Dict.mem_keys, ← h.timed]
    exact hbare

/-- The tables after a poll that is noted, with the idle count `n`. -/
theorem Inv.noted (h : Inv s) {verdicts : List Verdict}
    (hseen : s.seen.get? jobsetId = some verdicts)
    (hstops : ¬ Stops v.verdict verdicts) (ht : s'.timers = s.timers)
    (hs : s'.seen = s.seen.set jobsetId (v.verdict :: verdicts))
    (hother : ∀ js, js ≠ jobsetId → s'.idleCounts.get? js = s.idleCounts.get? js)
    (hcount : (s'.idleCounts.get? jobsetId).getD 0 = streak (· = .idle)
      (sighted (v.verdict :: verdicts))) :
    Inv s' := by
  have hmem : jobsetId ∈ s.timers.keys := (h.timed jobsetId).mpr ⟨verdicts, hseen⟩
  refine ⟨fun js => ?_, fun js hjs => ?_, fun js verdicts' hv => ?_, fun js verdicts' hv => ?_⟩
  · rw [ht, hs, Dict.get?_set, h.timed]
    by_cases hjs : js = jobsetId
    · subst hjs
      simp [hseen]
    · simp [hjs]
  · rw [ht] at hjs
    rw [hother js fun heq => hjs (heq ▸ hmem)]
    exact h.bare js hjs
  · rw [hs, Dict.get?_set] at hv
    split at hv
    case isTrue heq =>
      obtain rfl := Option.some.inj hv
      rw [heq]
      exact hcount
    case isFalse hne =>
      rw [hother js hne]
      exact h.count js verdicts' hv
  · rw [hs, Dict.get?_set] at hv
    split at hv
    case isTrue =>
      obtain rfl := Option.some.inj hv
      exact (h.patient _ _ hseen).cons hstops
    case isFalse => exact h.patient js verdicts' hv

theorem poll_polled (h : Inv s) (jobsetId : String) (v : View) :
    Polled s jobsetId v (s.poll jobsetId v) := by
  rcases hint : s.interrupted with - | -
  case true => exact .off hint (by rw [State.poll, if_pos hint])
  rw [State.poll, if_neg (by simp [hint])]
  by_cases hmem : jobsetId ∈ s.timers.keys
  case neg =>
    obtain ⟨ht, hc, hs⟩ := erase_bare h hmem
    have hnone : s.seen.get? jobsetId = none :=
      Dict.get?_eq_none.mpr fun hk => hmem ((h.timed _).mpr (Dict.mem_keys.mp hk))
    have hnote : s.note jobsetId v.verdict = s := by rw [State.note, hnone]
    rw [hnote]
    rcases v with ⟨answer, remaining⟩
    cases answer with
    | notFound => exact .bare hmem ht hc hs
    | raised what => exact .bare hmem rfl rfl rfl
    | result summary changed lost =>
      simp only [State.maybeAutoStop, if_pos hmem]
      exact .bare hmem rfl rfl rfl
  case pos =>
    obtain ⟨verdicts, hseen⟩ := (h.timed jobsetId).mp hmem
    have hnote : s.note jobsetId v.verdict
        = { s with seen := s.seen.set jobsetId (v.verdict :: verdicts) } := by
          rw [State.note, hseen]
    have hcount := h.count jobsetId verdicts hseen
    have hpatient := h.patient jobsetId verdicts hseen
    -- the tables when the timer is stopped do not depend on what was noted last
    have hstop {t : State} (htimers : t.timers = s.timers)
        (hidle : ∀ js, js ≠ jobsetId → t.idleCounts.get? js = s.idleCounts.get? js)
        (hseen' : t.seen = s.seen.set jobsetId (v.verdict :: verdicts)) :
            Inv (t.stopPolling jobsetId) := by
      have hbase := h.stopPolling jobsetId
      have hget : ∀ js, (t.seen.erase jobsetId).get? js = (s.seen.erase jobsetId).get? js :=
        fun js => by
        rw [hseen', Dict.get?_erase, Dict.get?_erase, Dict.get?_set]
        split <;> rfl
      have hgetc :
          ∀ js, (t.idleCounts.erase jobsetId).get? js = (s.idleCounts.erase jobsetId).get? js :=
        fun js => by
          rw [Dict.get?_erase, Dict.get?_erase]
          split
          case isTrue => rfl
          case isFalse hne => exact hidle js hne
      refine ⟨fun js => ?_, fun js hjs => ?_, fun js ws hw => ?_, fun js ws hw => ?_⟩
      · have := hbase.timed js
        simp only [State.stopPolling] at this ⊢
        rw [htimers, hget, this]
      · have := hbase.bare js
        simp only [State.stopPolling] at this hjs ⊢
        rw [hgetc]
        exact this (by rwa [htimers] at hjs)
      · have := hbase.count js ws
        simp only [State.stopPolling] at this hw ⊢
        rw [hgetc]
        exact this (by rwa [hget] at hw)
      · have := hbase.patient js ws
        simp only [State.stopPolling] at this hw ⊢
        exact this (by rwa [hget] at hw)
    rw [hnote]
    rcases v with ⟨answer, remaining⟩
    cases answer with
    | notFound => exact .stopped hint hseen (.inl rfl) rfl (hstop rfl (fun _ _ => rfl) rfl)
    | raised what =>
      have hns : ¬ Stops (View.verdict ⟨.raised what, remaining⟩) verdicts := by
        simp [Stops, View.verdict]
      exact .watched hint hseen hns rfl (h.noted hseen hns rfl rfl (fun _ _ => rfl) hcount)
    | result summary changed lost =>
      simp only [State.maybeAutoStop, if_neg (not_not.mpr hmem)]
      cases remaining with
      | none =>
        have hns : ¬ Stops (View.verdict ⟨.result summary changed lost, none⟩) verdicts := by
          simp [Stops, View.verdict]
        exact .watched hint hseen hns rfl (h.noted hseen hns rfl rfl (fun _ _ => rfl) hcount)
      | some records =>
        dsimp only
        by_cases hended : allEnded records = true
        · rw [if_pos hended]
          have hv : View.verdict ⟨.result summary changed lost, some records⟩ = .ended := by
            simp [View.verdict, hended]
          exact .stopped hint hseen (.inr (.inl hv)) rfl (hstop rfl (fun _ _ => rfl) rfl)
        rw [if_neg hended]
        by_cases hbusy : records.any underWay = true
        · rw [if_pos hbusy]
          have hv : View.verdict ⟨.result summary changed lost, some records⟩ = .busy := by
            simp [View.verdict, hended, hbusy]
          have hns :
              ¬ Stops (View.verdict ⟨.result summary changed lost, some records⟩) verdicts := by
            simp [Stops, hv]
          refine .watched hint hseen hns rfl (h.noted hseen hns rfl rfl (fun js hne => ?_) ?_)
          · simp only [Dict.get?_erase_of_ne _ hne]
          · rw [hv, sighted_cons _ (by decide),
              streak_cons_of_neg (p := (· = Verdict.idle)) (by decide)]
            simp
        · rw [if_neg hbusy]
          have hv : View.verdict ⟨.result summary changed lost, some records⟩ = .idle := by
            simp [View.verdict, hended, hbusy]
          -- the count is one or two, as the poll before was idle or not
          have hn : (s.idleCounts.get? jobsetId).getD 0 =
              if (sighted verdicts).head? = some .idle then 1
                else 0 := hcount.trans hpatient.streak_eq
          by_cases hlast : (sighted verdicts).head? = some .idle
          · rw [if_pos hlast] at hn
            rw [if_pos (by omega)]
            exact .stopped hint hseen (.inr (.inr ⟨hv, hlast⟩)) rfl
              (hstop rfl (fun js hne => Dict.get?_set_of_ne _ _ hne) rfl)
          · rw [if_neg hlast] at hn
            rw [if_neg (by omega)]
            have hns :
                ¬ Stops (View.verdict ⟨.result summary changed lost, some records⟩) verdicts := by
              simp [Stops, hv, hlast]
            refine .watched hint hseen hns rfl
              (h.noted hseen hns rfl rfl (fun js hne => Dict.get?_set_of_ne _ _ hne) ?_)
            rw [hv, sighted_cons _ (by decide),
              streak_cons_of_pos (p := (· = Verdict.idle)) rfl, ← hcount]
            simp

theorem Polled.inv (h : Inv s) (hp : Polled s jobsetId v s') : Inv s' := by
  cases hp with
  | off _ heq => exact heq ▸ h
  | bare _ ht hc hs => exact h.frame ht hc hs
  | stopped _ _ _ _ hinv => exact hinv
  | watched _ _ _ _ hinv => exact hinv

theorem Inv.startPolling (h : Inv s) (jobsetId : String) (intervalS : ℚ) (v : View) :
    Inv (s.startPolling jobsetId intervalS v) := by
  by_cases hint : s.interrupted = true
  · rw [State.startPolling, if_pos hint]
    exact h
  by_cases hsame : s.timers.get? jobsetId = some (timerMs intervalS)
  · rw [State.startPolling, if_neg hint, if_pos hsame]
    exact h
  · rw [State.startPolling, if_neg hint, if_neg hsame]
    have hnew := h.newTimer jobsetId (timerMs intervalS)
    exact (poll_polled hnew jobsetId v).inv hnew

theorem Inv.serve (h : Inv s) (v : View) (request : Request) : Inv (s.serve v request) := by
  cases request with
  | start jobsetId intervalS => exact h.startPolling jobsetId intervalS v
  | stop jobsetId => exact h.stopPolling jobsetId
  | poll jobsetId => exact (poll_polled h jobsetId v).inv h

theorem take_eq (hs : s.step (.take v) = some s') : ∃ request queue, s.queue = request :: queue ∧
    s' = { s with queue := queue }.serve v request := by
  simp only [State.step] at hs
  split at hs
  case h_1 => cases hs
  case h_2 request queue hqueue =>
    split_ifs at hs
    exact ⟨request, queue, hqueue, (Option.some.inj hs).symm⟩

theorem timeout_eq (hs : s.step (.timeout jobsetId v) = some s') : s' = s.poll jobsetId v := by
  simp only [State.step] at hs
  split_ifs at hs
  exact (Option.some.inj hs).symm

theorem finish_eq (hs : s.step .finish = some s') :
    s' = { s with finished := true, timers := ∅, idleCounts := ∅, seen := ∅ } := by
  simp only [State.step] at hs
  split_ifs at hs
  exact (Option.some.inj hs).symm

theorem Inv.step (h : Inv s) {a : Act} (hs : s.step a = some s') : Inv s' := by
  cases a with
  | post request =>
    obtain rfl := Option.some.inj hs
    exact h.frame rfl rfl rfl
  | take v =>
    obtain ⟨request, queue, -, rfl⟩ := take_eq hs
    have hrest : Inv { s with queue := queue } := h.frame rfl rfl rfl
    exact hrest.serve v request
  | timeout jobsetId v =>
    obtain rfl := timeout_eq hs
    exact (poll_polled h jobsetId v).inv h
  | interrupt =>
    obtain rfl := Option.some.inj hs
    exact h.frame rfl rfl rfl
  | finish =>
    obtain rfl := finish_eq hs
    exact inv_init.frame rfl rfl rfl

theorem inv_of_reachable (h : system.Reachable s) : Inv s := by
  refine h.invariant (fun s hinit => ?_) fun s a s' _ hinv _ hs => hinv.step hs
  obtain rfl : s = {} := hinit
  exact inv_init

/-! ## When a timer ends -/

/-- The poll of a jobset that a step makes, and what the polls of its timer saw before. -/
def State.polled (s : State) (jobsetId : String) : Act → Option (View × List Verdict)
  | .take v =>
    match s.queue with
    | .start js intervalS :: _ =>
      if js = jobsetId ∧ s.timers.get? js ≠ some (timerMs intervalS) then some (v, []) else none
    | .poll js :: _ => if js = jobsetId then some (v, (s.seen.get? js).getD []) else none
    | .stop _ :: _ | [] => none
  | .timeout js v => if js = jobsetId then some (v, (s.seen.get? js).getD []) else none
  | .post _ | .interrupt | .finish => none

/-- The step asks for the polling of a jobset. -/
def State.Starts (s : State) (jobsetId : String) (a : Act) : Prop :=
  s.interrupted = false ∧ ∃ v intervalS queue, a = .take v ∧
    s.queue = .start jobsetId intervalS :: queue

/-- The step is the end of the thread, or is asked to end the polling, or makes the last poll. -/
def State.Ends (s : State) (jobsetId : String) (a : Act) : Prop :=
  a = .finish ∨ (∃ v queue, a = .take v ∧ s.queue = .stop jobsetId :: queue) ∨
    s.interrupted = false ∧ ∃ v before, s.polled jobsetId a = some (v, before) ∧
      Stops v.verdict before

theorem poll_timers (h : Inv s) (jobsetId : String) (v : View) (js : String) :
    js ∈ (s.poll jobsetId v).timers.keys ↔ js ∈ s.timers.keys ∧
      ¬ (s.interrupted = false ∧ jobsetId = js ∧
          Stops v.verdict ((s.seen.get? jobsetId).getD [])) := by
  cases poll_polled h jobsetId v with
  | off hint heq => simp [heq, hint]
  | bare hbare ht hc hs =>
    rw [ht]
    refine ⟨fun hmem => ⟨hmem, fun hstop => hbare (hstop.2.1 ▸ hmem)⟩, And.left⟩
  | stopped hint hseen hstops ht hinv =>
    rw [ht, hseen]
    simp only [State.stopPolling, Dict.mem_keys_erase, hint, Option.getD_some, hstops,
      and_true, true_and]
    rw [and_comm, ne_comm]
  | watched hint hseen hstops ht hinv =>
    rw [ht, hseen]
    simp [hstops]

theorem startPolling_timers (h : Inv s) (jobsetId : String) (intervalS : ℚ)
    (v : View) (js : String) :
    js ∈ (s.startPolling jobsetId intervalS v).timers.keys ↔
      (js ∈ s.timers.keys ∨ s.interrupted = false ∧ jobsetId = js) ∧
        ¬ (s.interrupted = false ∧
          (jobsetId = js ∧ s.timers.get? jobsetId ≠ some (timerMs intervalS)) ∧
          Stops v.verdict []) := by
  by_cases hint : s.interrupted = true
  · rw [State.startPolling, if_pos hint]
    simp [hint]
  by_cases hsame : s.timers.get? jobsetId = some (timerMs intervalS)
  · rw [State.startPolling, if_neg hint, if_pos hsame]
    have hmem : jobsetId ∈ s.timers.keys := Dict.mem_keys.mpr ⟨_, hsame⟩
    simp only [hsame, ne_eq, not_true_eq_false, and_false, false_and, not_false_eq_true, and_true]
    refine ⟨Or.inl, ?_⟩
    rintro (hjs | ⟨-, rfl⟩)
    · exact hjs
    · exact hmem
  · rw [State.startPolling, if_neg hint, if_neg hsame]
    rw [poll_timers (h.newTimer jobsetId (timerMs intervalS))]
    simp only [Dict.get?_set_self, Option.getD_some, Dict.mem_keys_set, State.stopPolling,
      Dict.mem_keys_erase, hsame, ne_eq, not_false_eq_true, and_true]
    by_cases hjs : jobsetId = js
    · subst hjs
      simp [hint]
    · simp [hjs, Ne.symm hjs]

theorem serve_timers (h : Inv s) {v : View} {request : Request} {queue : List Request}
    (hqueue : s.queue = request :: queue) (js : String) :
    js ∈ ({ s with queue := queue }.serve v request).timers.keys ↔
      (js ∈ s.timers.keys ∨ s.Starts js (.take v)) ∧ ¬ s.Ends js (.take v) := by
  have hrest : Inv { s with queue := queue } := h.frame rfl rfl rfl
  cases request with
  | start jobsetId intervalS =>
    rw [State.serve, startPolling_timers hrest]
    simp [State.Starts, State.Ends, State.polled, hqueue]
  | stop jobsetId =>
    have hkeys : js ∈ (s.timers.erase jobsetId).keys ↔ js ∈ s.timers.keys ∧ ¬ jobsetId = js := by
      rw [Dict.mem_keys_erase, and_comm, ne_comm]
    simpa [State.serve, State.stopPolling, State.Starts, State.Ends, State.polled, hqueue]
      using hkeys
  | poll jobsetId =>
    rw [State.serve, poll_timers hrest]
    simp [State.Starts, State.Ends, State.polled, hqueue]

/-- **A timer ends when there is nothing left to watch, and not before.**  The polls of a timer saw
its jobset neither gone nor ended, and two in a row of those that were answered did not both see it
idle.  A step ends the timer if and only if it is the end of the thread, or serves a request to
stop, or makes a poll that sees the jobset gone or ended, or idle like the last poll that was
answered; and only a request makes a timer. -/
theorem polling_ends (h : system.Reachable s) {a : Act} (hs : s.step a = some s') (js : String) :
    (js ∈ s.timers.keys → ∃ verdicts, s.seen.get? js = some verdicts ∧ Patient verdicts) ∧
      (js ∈ s'.timers.keys ↔ (js ∈ s.timers.keys ∨ s.Starts js a) ∧ ¬ s.Ends js a) := by
  have hinv := inv_of_reachable h
  refine ⟨fun hmem => ?_, ?_⟩
  · obtain ⟨verdicts, hseen⟩ := (hinv.timed js).mp hmem
    exact ⟨verdicts, hseen, hinv.patient js verdicts hseen⟩
  cases a with
  | post request =>
    obtain rfl := Option.some.inj hs
    simp [State.Starts, State.Ends, State.polled]
  | take v =>
    obtain ⟨request, queue, hqueue, rfl⟩ := take_eq hs
    exact serve_timers hinv hqueue js
  | timeout jobsetId v =>
    obtain rfl := timeout_eq hs
    rw [poll_timers hinv]
    simp [State.Starts, State.Ends, State.polled]
  | interrupt =>
    obtain rfl := Option.some.inj hs
    simp [State.Starts, State.Ends, State.polled]
  | finish =>
    obtain rfl := finish_eq hs
    simp [State.Ends]

/-- What a poll of a jobset with no records meets. -/
def noRecords : View :=
  { answer := .result { total := 0, counts := ∅ } [] [], remaining := some [] }

theorem polling_ends_emptied : ∃ s s' : State,
    system.run {} [.post (.start "js" 10), .take noRecords] = some s ∧
      s.step (.timeout "js" noRecords) = some s' ∧ "js" ∈ s.timers.keys ∧
          "js" ∉ s'.timers.keys := by
  refine ⟨_, _, rfl, rfl, by decide +kernel, fun hmem => ?_⟩
  have hrun : system.run {} [.post (.start "js" 10), .take noRecords]
      = some (({} : State).serve noRecords (.start "js" 10)) := rfl
  have hends := ((polling_ends (a := .timeout "js" noRecords)
    (System.reachable_of_run (.init rfl) hrun) rfl
    "js").2.mp hmem).2
  exact hends (.inr (.inr ⟨by decide +kernel, noRecords, [.idle], rfl, by decide⟩))

end Lsfmgr.Monitor.Polling
