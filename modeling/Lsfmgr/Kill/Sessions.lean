import Mathlib
import Lsfmgr.Machinery.Transition
import Lsfmgr.Completion.Tracker
import Lsfmgr.Kill.Task

/-!
# Kill/Sessions — `Killer`, from the request of a kill to its delivery

A kill is accepted on the main thread, waits for a thread of the pool, runs, and posts what it has
to say to the main thread; the report it posts last is delivered there, after the kill has been
taken out of the ledger.  So between `kill_started` and `kill_finished` the kill is in the ledger,
and it is in exactly one place: it waits, it runs, or its report is on the way.
-/

namespace Lsfmgr.Kill.Sessions

open Machinery Command Completion

/-- An accepted kill; the slot tells it from every other. -/
structure Session extends KillActivity where
  jobsetId : String
  deriving DecidableEq

/-- `_KillActivity`, with its progress. -/
structure Activity extends KillActivity where
  done : ℕ := 0
  total : ℕ := 0

inductive Event
  | started
  | progress (done total : ℕ)
  | error (what : Text)
  | completed (report : KillReport)

/-- What a kill says; `jobsetIds` is filled in when its report is delivered. -/
structure Entry where
  kill : Session
  event : Event
  jobsetIds : List String := []

/-- The signals of the manager. -/
inductive Signal
  | killStarted (jobsetId : String)
  | killProgress (jobsetId : String) (done total : ℕ)
  | errorOccurred (jobsetId : String) (what : Text)
  | killFailed (jobsetId : String) (message : Text)
  | killFinished (jobsetId : String) (report : KillReport) (jobsetIds : List String)

/-- `_emit_kill_failures` runs before the report is passed on. -/
def Event.signals (jobsetId : String) (jobsetIds : List String) : Event → List Signal
  | .started => [.killStarted jobsetId]
  | .progress done total => [.killProgress jobsetId done total]
  | .error what => [.errorOccurred jobsetId what]
  | .completed report =>
    report.errors.map (.killFailed jobsetId) ++ [.killFinished jobsetId report jobsetIds]

def Entry.signals (e : Entry) : List Signal := e.event.signals e.kill.jobsetId e.jobsetIds

/-- The killer, its pool and its messages to the main thread.  `accepted` has the kills in the order
of their requests; it is read for the next slot only. -/
structure State where
  active : Dict String (List Activity) := ∅
  /-- `_shutdown_done` of the manager, and `_shutdown` of the killer. -/
  shutdownDone : Bool := false
  shutdown : Bool := false
  /-- `waitForDone` has returned. -/
  joined : Bool := false
  accepted : List Session := []
  waiting : List Session := []
  /-- The kills that run, with the report once there is one. -/
  running : Dict Session (Option KillReport) := ∅
  posted : List Entry := []
  log : List Entry := []

namespace State

variable (s : State)

/-- `is_active` -/
def isActive (jobsetId : String) : Bool := !(s.active.listAt jobsetId).isEmpty

/-- `blocks_completion` -/
def blocksCompletion (jobsetId : String) (records : List JobRecord) : Bool :=
  Completion.blocksCompletion (s.active.mapValues fun _ l => l.map Activity.toKillActivity)
    jobsetId records

/-- `progress_snapshot` -/
def progressSnapshot (jobsetId : String) : Option (ℕ × ℕ) :=
  let slots := s.active.listAt jobsetId
  if slots = [] then none else some ((slots.map Activity.done).sum, (slots.map Activity.total).sum)

/-- `_reg` and `pool.start`, then `kill_started` -/
def start (jobsetId : String) (jobIds : List ℕ) : State :=
  let kill : Session := { slot := s.accepted.length, jobIds := jobIds, jobsetId := jobsetId }
  { s with
    active := ledgerAdd s.active jobsetId { kill.toKillActivity with }
    accepted := s.accepted ++ [kill]
    waiting := s.waiting ++ [kill]
    log := s.log ++ [{ kill := kill, event := .started }] }

/-- `_set_progress`, which writes to the object wherever it is. -/
def setProgress (kill : Session) (done total : ℕ) : State :=
  { s with
    active := s.active.mapValues fun _ slots =>
      slots.map fun a => if a.slot = kill.slot then { a with done := done, total := total } else a }

def post (kill : Session) (event : Event) : State :=
  { s with posted := s.posted ++ [{ kill := kill, event := event }] }

/-- The kill runs, and has no report yet. -/
def works (kill : Session) : Bool :=
  match s.running.get? kill with
  | some none => true
  | _ => false

/-- `run`, from the end of `_run` to its last signal. -/
def settle (kill : Session) (outcome : Except Text KillReport) : State :=
  let s :=
    match outcome with
    | .ok report =>
      (s.setProgress kill report.requested report.requested).post kill
        (.progress report.requested report.requested)
    | .error what => s.post kill (.error what)
  { s with running := s.running.set kill (some (reportOf kill.jobsetId outcome)) }

/-- The jobsets a kill is delivered to; `store` is `none` where it raises. -/
def affected (kill : Session) (store : Option InMemoryStore) : Finset String :=
  if kill.jobsetId ≠ "" then {kill.jobsetId}
  else
    match store with
    | some store =>
      if kill.jobIds ≠ [] then ((store.findJobs kill.jobIds).map (·.jobsetId)).toFinset else ∅
    | none => ∅

/-- A posted call runs on the main thread; for a report that is `_finish_activity`. -/
def deliver (store : Option InMemoryStore) (e : Entry) : State :=
  match e.event with
  | .completed _ =>
    { s with
      active := ledgerRemove s.active e.kill.jobsetId fun a => a.slot = e.kill.slot
      log := s.log ++ [{ e with jobsetIds := sorted (affected e.kill store) }] }
  | _ => { s with log := s.log ++ [e] }

end State

inductive Act
  /-- `kill` or `kill_jobs` of the manager, up to its signal; `jobIds` are the targets it is given
  as such. -/
  | kill (jobsetId : String) (jobIds : List Text)
  /-- A thread of the pool takes the next task. -/
  | begin
  /-- `_emit_progress`; `emit` is what the throttler says. -/
  | progress (kill : Session) (done total : ℕ) (emit : Bool)
  | settle (kill : Session) (outcome : Except Text KillReport)
  /-- `run` sends `_completed`, and ends. -/
  | complete (kill : Session)
  | deliver (store : Option InMemoryStore)
  /-- `shutdown` of the manager begins. -/
  | close
  /-- `shutdown` of the killer: its flag… -/
  | shutdown
  /-- …and then, when the pool is done, the ledger. -/
  | join

def step (py : Python) (s : State) : Act → Option State
  | .kill jobsetId jobIds =>
    if s.shutdownDone ∨ s.shutdown then some s
    else
      match jobIds.mapM (targetParentId py) with
      | .error _ => some s
      | .ok pids => some (s.start jobsetId pids.reduceOption)
  | .begin =>
    match s.waiting with
    | [] => none
    | kill :: waiting => some { s with waiting := waiting, running := s.running.set kill none }
  | .progress kill done total emit =>
    if s.works kill then
      let s := s.setProgress kill done total
      some (if 0 < total ∧ emit then s.post kill (.progress done total) else s)
    else none
  | .settle kill outcome => if s.works kill then some (s.settle kill outcome) else none
  | .complete kill =>
    match s.running.get? kill with
    | some (some report) =>
      some ({ s with running := s.running.erase kill }.post kill (.completed report))
    | _ => none
  | .deliver store =>
    match s.posted with
    | [] => none
    | e :: posted => some ({ s with posted := posted }.deliver store e)
  | .close => some { s with shutdownDone := true }
  | .shutdown => some { s with shutdown := true }
  | .join =>
    if s.shutdown ∧ s.waiting = [] ∧ s.running.keys = []
      then some { s with joined := true, active := ∅ } else none

def system (py : Python) : System State Act where
  init s := s = {}
  step := step py

/-! ## What a kill says -/

def Event.IsNote : Event → Prop
  | .progress _ _ | .error _ => True
  | .started | .completed _ => False

def Event.isReport : Event → Bool
  | .completed _ => true
  | .started | .progress _ _ | .error _ => false

/-- The note before a report: the whole progress, or the error that the report is about. -/
def Fits (jobsetId : String) (report : KillReport) : Event → Prop
  | .progress done total => done = report.requested ∧ total = report.requested
  | .error what => report = reportOf jobsetId (.error what)
  | .started | .completed _ => False

def Opened (events : List Event) : Prop :=
  ∃ notes : List Event, (∀ e ∈ notes, e.IsNote) ∧ events = .started :: notes

def Settled (jobsetId : String) (report : KillReport) (events : List Event) : Prop :=
  ∃ before last, Opened before ∧ Fits jobsetId report last ∧ events = before ++ [last]

def Closed (jobsetId : String) (events : List Event) : Prop :=
  ∃ before report, Settled jobsetId report before ∧ events = before ++ [.completed report]

/-- The events of one kill. -/
def eventsOf (kill : Session) (entries : List Entry) : List Event :=
  (entries.filter fun e => e.kill = kill).map Entry.event

@[simp] theorem eventsOf_nil (kill : Session) : eventsOf kill [] = [] := rfl

@[simp] theorem eventsOf_append (kill : Session) (l l' : List Entry) :
    eventsOf kill (l ++ l') = eventsOf kill l ++ eventsOf kill l' := by
  simp [eventsOf]

theorem eventsOf_cons (kill : Session) (e : Entry) (l : List Entry) :
    eventsOf kill (e :: l) = (if e.kill = kill then [e.event] else []) ++ eventsOf kill l := by
  by_cases h : e.kill = kill <;> simp [eventsOf, h]

/-- What a kill has said so far, heard or not. -/
def State.history (s : State) (kill : Session) : List Event :=
  eventsOf kill s.log ++ eventsOf kill s.posted

theorem Fits.isNote {jobsetId : String} {report : KillReport} {e : Event}
    (h : Fits jobsetId report e) :
    e.IsNote := by
  cases e with
  | progress | error => trivial
  | started | completed => exact h

theorem Opened.concat {events : List Event} (h : Opened events) {e : Event} (he : e.IsNote) :
    Opened (events ++ [e]) := by
  obtain ⟨notes, hnotes, rfl⟩ := h
  refine ⟨notes ++ [e], fun x hx => ?_, rfl⟩
  rcases List.mem_append.mp hx with hx | hx
  · exact hnotes x hx
  · exact List.mem_singleton.mp hx ▸ he

theorem Settled.opened {jobsetId : String} {report : KillReport} {events : List Event}
    (h : Settled jobsetId report events) : Opened events := by
  obtain ⟨before, last, hopen, hfits, rfl⟩ := h
  exact hopen.concat hfits.isNote

theorem Opened.not_isReport {events : List Event} (h : Opened events) :
    ∀ e ∈ events, e.isReport = false := by
  obtain ⟨notes, hnotes, rfl⟩ := h
  intro e he
  rcases List.mem_cons.mp he with rfl | he
  · rfl
  · have := hnotes e he
    cases e <;> first | rfl | exact this.elim

/-! ## Where a kill is -/

/-- **A kill is in one place**, and what it has said so far goes with it. -/
structure Kept (s : State) (kill : Session) : Prop where
  known : kill ∈ s.waiting ∨ kill ∈ s.running.keys → kill ∈ s.accepted
  apart : kill ∈ s.waiting → kill ∉ s.running.keys
  silent : kill ∉ s.accepted → s.history kill = []
  heard : kill ∈ s.accepted → ∃ notes, eventsOf kill s.log = .started :: notes
  queued : kill ∈ s.waiting → s.history kill = [.started]
  working : s.running.get? kill = some none → Opened (s.history kill)
  settled : ∀ report, s.running.get? kill = some (some report) →
    Settled kill.jobsetId report (s.history kill)
  ended : kill ∈ s.accepted → kill ∉ s.waiting → kill ∉ s.running.keys →
    Closed kill.jobsetId (s.history kill)

structure Inv (s : State) : Prop where
  numbered : ∀ i (kill : Session), s.accepted[i]? = some kill → kill.slot = i
  nodup : s.waiting.Nodup
  joined : s.joined = true → s.shutdown = true ∧ s.waiting = [] ∧ s.running.keys = []
  kept : ∀ kill, Kept s kill

variable {s s' : State} {kill : Session}

theorem inv_init : Inv {} where
  numbered i kill h := by simp at h
  nodup := List.nodup_nil
  joined h := by cases h
  kept kill :=
    { known := fun h => by simp at h
      apart := fun h => by simp at h
      silent := fun _ => rfl
      heard := fun h => by simp at h
      queued := fun h => by simp at h
      working := fun h => by simp at h
      settled := fun report h => by simp at h
      ended := fun h => by simp at h }

/-- A step that does not move the kill, and after which it has said the same. -/
theorem Kept.congr (h : Kept s kill) (ha : kill ∈ s'.accepted ↔ kill ∈ s.accepted)
    (hw : kill ∈ s'.waiting ↔ kill ∈ s.waiting) (hr : s'.running.get? kill = s.running.get? kill)
    (hl : ∃ more, eventsOf kill s'.log = eventsOf kill s.log ++ more)
    (hh : s'.history kill = s.history kill) : Kept s' kill := by
  have hk : kill ∈ s'.running.keys ↔ kill ∈ s.running.keys := by
    rw [Dict.mem_keys, Dict.mem_keys, hr]
  obtain ⟨more, hl⟩ := hl
  refine ⟨by rw [ha, hw, hk]; exact h.known,
    by rw [hw, hk]; exact h.apart, by rw [ha, hh]; exact h.silent, fun hmem => ?_,
    by rw [hw, hh]; exact h.queued, by rw [hr, hh]; exact h.working,
    by rw [hh]; exact fun report hreport => h.settled report (hr ▸ hreport),
      by rw [ha, hw, hk, hh]; exact h.ended⟩
  obtain ⟨notes, hnotes⟩ := h.heard (ha.mp hmem)
  exact ⟨notes ++ more, by rw [hl, hnotes]; rfl⟩

theorem history_post (s : State) (kill : Session) (event : Event) (kill' : Session) :
    (s.post kill event).history kill' =
      if kill = kill' then s.history kill' ++ [event] else s.history kill' := by
  rw [State.history, State.post, eventsOf_append, eventsOf_cons, ← List.append_assoc]
  split <;> simp [State.history]

theorem history_deliver {e : Entry} {posted : List Entry} (hp : s.posted = e :: posted)
    (store : Option InMemoryStore) (kill : Session) :
    ({ s with posted := posted }.deliver store e).history kill = s.history kill := by
  rw [State.history, State.history, hp, eventsOf_cons]
  rcases e with ⟨k, event, jobsetIds⟩
  cases event <;> simp [State.deliver, eventsOf_cons]

namespace Inv

/-- A step that moves no kill and says nothing. -/
theorem frame (h : Inv s) (ha : s'.accepted = s.accepted) (hw : s'.waiting = s.waiting)
    (hr : s'.running = s.running) (hl : s'.log = s.log) (hp : s'.posted = s.posted)
    (hj : s'.joined = true → s'.shutdown = true ∧ s'.waiting = [] ∧ s'.running.keys = []) :
    Inv s' where
  numbered := ha ▸ h.numbered
  nodup := hw ▸ h.nodup
  joined := hj
  kept kill :=
    (h.kept kill).congr (by rw [ha]) (by rw [hw]) (by rw [hr]) ⟨[], by rw [hl, List.append_nil]⟩
    (by rw [State.history, State.history, hl, hp])

theorem not_mem_accepted (h : Inv s) {kill : Session} (hslot : kill.slot = s.accepted.length) :
    kill ∉ s.accepted := by
  intro hmem
  obtain ⟨i, hi⟩ := List.getElem?_of_mem hmem
  have := h.numbered i kill hi
  have := (List.getElem?_eq_some_iff.mp hi).1
  omega

theorem start (h : Inv s) (hnot : s.joined = false) (jobsetId : String) (jobIds : List ℕ) :
    Inv (s.start jobsetId jobIds) := by
  have hnew : (⟨⟨s.accepted.length, jobIds⟩, jobsetId⟩ : Session) ∉ s.accepted :=
    h.not_mem_accepted rfl
  have hold := h.kept ⟨⟨s.accepted.length, jobIds⟩, jobsetId⟩
  have hwait := fun hm => hnew (hold.known (.inl hm))
  have hrun := fun hm => hnew (hold.known (.inr hm))
  refine ⟨fun i kill hi => ?_, ?_, fun hj => absurd hj (by simp [State.start, hnot]),
    fun kill => ?_⟩
  · simp only [State.start, List.getElem?_append] at hi
    split at hi
    case isTrue => exact h.numbered i kill hi
    case isFalse hle =>
      rw [List.getElem?_singleton] at hi
      split at hi
      case isTrue heq =>
        obtain rfl := Option.some.inj hi
        change s.accepted.length = i
        omega
      case isFalse => cases hi
  · exact List.Nodup.append h.nodup (List.nodup_singleton _) (by simpa using hwait)
  by_cases hk : kill = ⟨⟨s.accepted.length, jobIds⟩, jobsetId⟩
  · subst hk
    have hnil := hold.silent hnew
    rw [State.history, List.append_eq_nil_iff] at hnil
    have hsaid :
        (s.start jobsetId jobIds).history ⟨⟨s.accepted.length, jobIds⟩, jobsetId⟩ = [.started] := by
      simp [State.history, State.start, eventsOf_cons, hnil]
    have hnone : s.running.get? ⟨⟨s.accepted.length, jobIds⟩, jobsetId⟩ = none :=
      Dict.get?_eq_none.mpr hrun
    have hin : (⟨⟨s.accepted.length, jobIds⟩, jobsetId⟩ : Session) ∈
        (s.start jobsetId jobIds).accepted := by
      simp [State.start]
    have hwaits : (⟨⟨s.accepted.length, jobIds⟩, jobsetId⟩ : Session) ∈
        (s.start jobsetId jobIds).waiting := by
      simp [State.start]
    exact
      { known := fun _ => hin
        apart := fun _ => hrun
        silent := fun hout => absurd hin hout
        heard := fun _ => ⟨[], by simp [State.start, eventsOf_cons, hnil]⟩
        queued := fun _ => hsaid
        working := fun hw => absurd hw (by simp [State.start, hnone])
        settled := fun report hw => absurd hw (by simp [State.start, hnone])
        ended := fun _ hout => absurd hwaits hout }
  · refine (h.kept kill).congr (by simp [State.start, hk])
      (by simp [State.start, hk]) rfl ⟨[], ?_⟩ ?_
    · simp [State.start, eventsOf_cons, Ne.symm hk]
    · simp [State.history, State.start, eventsOf_cons, Ne.symm hk]

/-- What happens to a kill that runs; the others are where they were. -/
theorem update (h : Inv s) (hrun : kill ∈ s.running.keys) {run : Dict Session (Option KillReport)}
    {event : Event} (hother : ∀ k, k ≠ kill → run.get? k = s.running.get? k)
    (hkept : Kept ({ s with running := run }.post kill event) kill) :
    Inv ({ s with running := run }.post kill event) := by
  refine ⟨h.numbered, h.nodup, fun hj => ?_, fun k => ?_⟩
  · have hnil := (h.joined hj).2.2
    rw [hnil] at hrun
    cases hrun
  · by_cases hk : k = kill
    · exact hk ▸ hkept
    · refine (h.kept k).congr Iff.rfl Iff.rfl (hother k hk) ⟨[], by simp [State.post]⟩ ?_
      rw [history_post, if_neg (Ne.symm hk)]
      rfl

/-- A kill that runs says something, and goes on. -/
theorem note (h : Inv s) (hwork : s.running.get? kill = some none) {event : Event}
    (he : event.IsNote) :
    Inv (s.post kill event) := by
  have hold := h.kept kill
  have hrun : kill ∈ s.running.keys := Dict.mem_keys.mpr ⟨_, hwork⟩
  have hmem := hold.known (.inr hrun)
  refine h.update hrun (fun _ _ => rfl)
    { known := fun _ => hmem
      apart := hold.apart
      silent := fun hout => absurd hmem hout
      heard := hold.heard
      queued := fun hw => absurd hrun (hold.apart hw)
      working := fun _ => ?_
      settled := fun report hr => ?_
      ended := fun _ _ hout => absurd hrun hout }
  · rw [history_post, if_pos rfl]
    exact (hold.working hwork).concat he
  · exact absurd (hwork.symm.trans hr) (by simp)

theorem settle (h : Inv s) (hwork : s.running.get? kill = some none)
    {report : KillReport} {event : Event}
    (he : Fits kill.jobsetId report event) :
    Inv ({ s with running := s.running.set kill (some report) }.post kill event) := by
  have hold := h.kept kill
  have hrun : kill ∈ s.running.keys := Dict.mem_keys.mpr ⟨_, hwork⟩
  have hmem := hold.known (.inr hrun)
  have hset : (s.running.set kill (some report)).get? kill = some (some report) :=
    Dict.get?_set_self ..
  refine h.update hrun (fun k hk => Dict.get?_set_of_ne _ _ hk)
    { known := fun _ => hmem
      apart := fun hw => absurd hrun (hold.apart hw)
      silent := fun hout => absurd hmem hout
      heard := hold.heard
      queued := fun hw => absurd hrun (hold.apart hw)
      working := fun hw => absurd (hset.symm.trans hw) (by simp)
      settled := fun report' hr => ?_
      ended := fun _ _ hout => absurd (Dict.mem_keys.mpr ⟨_, hset⟩) hout }
  obtain rfl : report = report' := by simpa using hset.symm.trans hr
  rw [history_post, if_pos rfl]
  exact ⟨_, event, hold.working hwork, he, rfl⟩

theorem complete (h : Inv s) {report : KillReport}
    (hreport : s.running.get? kill = some (some report)) :
    Inv ({ s with running := s.running.erase kill }.post kill (.completed report)) := by
  have hold := h.kept kill
  have hrun : kill ∈ s.running.keys := Dict.mem_keys.mpr ⟨_, hreport⟩
  have hmem := hold.known (.inr hrun)
  have herase : (s.running.erase kill).get? kill = none := Dict.get?_erase_self ..
  refine h.update hrun (fun k hk => Dict.get?_erase_of_ne _ hk)
    { known := fun _ => hmem
      apart := fun hw => absurd hrun (hold.apart hw)
      silent := fun hout => absurd hmem hout
      heard := hold.heard
      queued := fun hw => absurd hrun (hold.apart hw)
      working := fun hw => absurd (herase.symm.trans hw) (by simp)
      settled := fun report' hr => absurd (herase.symm.trans hr) (by simp)
      ended := fun _ _ _ => ?_ }
  rw [history_post, if_pos rfl]
  exact ⟨_, report, hold.settled report hreport, rfl⟩

theorem begin (h : Inv s) {waiting : List Session} (hw : s.waiting = kill :: waiting) :
    Inv { s with waiting := waiting, running := s.running.set kill none } := by
  have hold := h.kept kill
  have hmem : kill ∈ s.waiting := by rw [hw]; exact List.mem_cons_self
  have hacc := hold.known (.inl hmem)
  have hnodup := h.nodup
  rw [hw, List.nodup_cons] at hnodup
  have hset : (s.running.set kill none).get? kill = some none := Dict.get?_set_self ..
  refine ⟨h.numbered, hnodup.2, fun hj => ?_, fun k => ?_⟩
  · have hnil := (h.joined hj).2.1
    rw [hnil] at hmem
    cases hmem
  by_cases hk : k = kill
  · subst hk
    exact
      { known := fun _ => hacc
        apart := fun hin => absurd hin hnodup.1
        silent := fun hout => absurd hacc hout
        heard := hold.heard
        queued := fun hin => absurd hin hnodup.1
        working := fun _ => ⟨[], by simp, hold.queued hmem⟩
        settled := fun report hr => absurd (hset.symm.trans hr) (by simp)
        ended := fun _ _ hout => absurd (Dict.mem_keys.mpr ⟨_, hset⟩) hout }
  · exact (h.kept k).congr Iff.rfl (by simp [hw, hk]) (Dict.get?_set_of_ne _ _ hk) ⟨[], by simp⟩ rfl

theorem deliver (h : Inv s) {e : Entry} {posted : List Entry} (hp : s.posted = e :: posted)
    (store : Option InMemoryStore) : Inv ({ s with posted := posted }.deliver store e) := by
  have hframe : ({ s with posted := posted }.deliver store e).accepted = s.accepted ∧
      ({ s with posted := posted }.deliver store e).waiting = s.waiting ∧
      ({ s with posted := posted }.deliver store e).running = s.running ∧
      ({ s with posted := posted }.deliver store e).joined = s.joined ∧
      ({ s with posted := posted }.deliver store e).shutdown = s.shutdown := by
    rcases e with ⟨k, event, jobsetIds⟩
    cases event <;> exact ⟨rfl, rfl, rfl, rfl, rfl⟩
  obtain ⟨ha, hw, hr, hj, hd⟩ := hframe
  refine ⟨by rw [ha]; exact h.numbered,
    by rw [hw]; exact h.nodup, by rw [hj, hd, hw, hr]; exact h.joined, fun k => ?_⟩
  refine (h.kept k).congr (by rw [ha]) (by rw [hw]) (by rw [hr]) ?_ (history_deliver hp store k)
  rcases e with ⟨k', event, jobsetIds⟩
  cases event <;> exact ⟨_, eventsOf_append k s.log _⟩

theorem setProgress (h : Inv s) (kill : Session) (done total : ℕ) :
    Inv (s.setProgress kill done total) :=
  h.frame rfl rfl rfl rfl rfl h.joined

end Inv

theorem works_iff : s.works kill = true ↔ s.running.get? kill = some none := by
  rw [State.works]
  split <;> simp_all

/-! ## The ledger -/

/-- The report of the kill has been delivered. -/
def State.delivered (s : State) (kill : Session) : Bool := (eventsOf kill s.log).any Event.isReport

/-- **The ledger has the kills that are not delivered**, in the order of their requests. -/
def Entered (s : State) : Prop :=
  s.joined = false → ∀ js, (s.active.listAt js).map Activity.toKillActivity =
    (s.accepted.filter fun k => k.jobsetId = js ∧ s.delivered k = false).map Session.toKillActivity

theorem Entered.congr (h : Entered s)
    (hl : ∀ js, (s'.active.listAt js).map Activity.toKillActivity =
      (s.active.listAt js).map Activity.toKillActivity)
    (ha : s'.accepted = s.accepted) (hlog : s'.log = s.log) (hj : s'.joined = s.joined) :
    Entered s' := by
  intro hjoined js
  have hsame : ∀ k, s'.delivered k = s.delivered k := fun k => by
    rw [State.delivered, State.delivered, hlog]
  rw [hl, ha, h (hj ▸ hjoined) js]
  simp only [hsame]

theorem listAt_mapValues {κ α β : Type} [DecidableEq κ] (t : Dict κ (List α)) (f : List α → List β)
    (hf : f [] = []) (k : κ) : (t.mapValues fun _ => f).listAt k = f (t.listAt k) := by
  rw [Dict.listAt, Dict.get?_mapValues, Dict.listAt]
  cases t.get? k <;> simp [hf]

theorem Entered.setProgress (h : Entered s) (kill : Session) (done total : ℕ) :
    Entered (s.setProgress kill done total) := by
  refine h.congr (fun js => ?_) rfl rfl rfl
  rw [State.setProgress, listAt_mapValues _ _ rfl, List.map_map]
  refine List.map_congr_left fun a _ => ?_
  rw [Function.comp_apply]
  split <;> rfl

theorem Kept.not_delivered (h : Kept s kill) (hout : kill ∉ s.accepted) :
    s.delivered kill = false := by
  have hnil := h.silent hout
  rw [State.history, List.append_eq_nil_iff] at hnil
  rw [State.delivered, hnil.1]
  rfl

theorem Entered.start (h : Entered s) (hinv : Inv s) (jobsetId : String) (jobIds : List ℕ) :
    Entered (s.start jobsetId jobIds) := by
  intro hj js
  have hnew : (⟨⟨s.accepted.length, jobIds⟩, jobsetId⟩ : Session) ∉ s.accepted :=
    hinv.not_mem_accepted rfl
  have hsame : ∀ k, (s.start jobsetId jobIds).delivered k = s.delivered k := fun k => by
    simp only [State.delivered, State.start, eventsOf_append, List.any_append, eventsOf_cons]
    split <;> simp [Event.isReport]
  have hfresh : s.delivered ⟨⟨s.accepted.length, jobIds⟩, jobsetId⟩ = false :=
    (hinv.kept _).not_delivered hnew
  have hold := h hj js
  simp only [hsame]
  rw [State.start, listAt_ledgerAdd, List.filter_append, List.map_append, ← hold]
  by_cases hjs : js = jobsetId
  · subst hjs
    simp [hfresh]
  · simp [hjs, Ne.symm hjs]

/-- A kill says one report at most, and nothing after it. -/
theorem Kept.report_last (h : Kept s kill) (hmem : kill ∈ s.accepted)
    {before after : List Event} {e : Event}
    (hh : s.history kill = before ++ e :: after) (he : e.isReport = true) :
    Closed kill.jobsetId (s.history kill) ∧ after = [] ∧ ∀ x ∈ before, x.isReport = false := by
  have hnone (hopen : Opened (s.history kill)) : False := by
    have := hopen.not_isReport e (hh ▸ by simp)
    rw [he] at this
    cases this
  by_cases hw : kill ∈ s.waiting
  · exact (hnone ⟨[], by simp, h.queued hw⟩).elim
  rcases hr : s.running.get? kill with - | - | report
  · have hclosed := h.ended hmem hw (Dict.get?_eq_none.mp hr)
    refine ⟨hclosed, ?_⟩
    obtain ⟨said, report, hsettled, heq⟩ := hclosed
    have hopen := hsettled.opened.not_isReport
    rw [hh] at heq
    rcases List.eq_nil_or_concat after with rfl | ⟨after, x, rfl⟩
    · obtain ⟨rfl, -⟩ := List.append_inj' heq rfl
      exact ⟨rfl, hopen⟩
    · have heq' : (before ++ e :: after) ++ [x] = said ++ [.completed report] := by simpa using heq
      obtain ⟨rfl, -⟩ := List.append_inj' heq' rfl
      have := hopen e (by simp)
      rw [he] at this
      cases this
  · exact (hnone (h.working hr)).elim
  · exact (hnone (h.settled report hr).opened).elim

theorem Inv.slot_inj (h : Inv s) {k k' : Session} (hk : k ∈ s.accepted) (hk' : k' ∈ s.accepted)
    (hslot : k.slot = k'.slot) : k = k' := by
  obtain ⟨i, hi⟩ := List.getElem?_of_mem hk
  obtain ⟨j, hj⟩ := List.getElem?_of_mem hk'
  have hij : i = j := by rw [← h.numbered i k hi, hslot, h.numbered j k' hj]
  subst hij
  exact Option.some.inj (hi.symm.trans hj)

theorem Inv.nodup_accepted (h : Inv s) : s.accepted.Nodup := by
  rw [List.nodup_iff_getElem?_ne_getElem?]
  intro i j hij hj heq
  have hk := List.getElem?_eq_getElem hj
  have := h.numbered j _ hk
  have := h.numbered i _ (heq.trans hk)
  omega

/-- Taking out the first kill with a slot takes out that kill alone. -/
theorem eraseP_slot (h : Inv s) (hmem : kill ∈ s.accepted) {l : List Session}
    (hl : ∀ k ∈ l, k ∈ s.accepted)
    (hnodup : l.Nodup) : l.eraseP (fun k => k.slot = kill.slot) = l.filter (· ≠ kill) := by
  induction l with
  | nil => rfl
  | cons k l ih =>
    rw [List.nodup_cons] at hnodup
    rw [List.forall_mem_cons] at hl
    by_cases hk : k = kill
    · subst hk
      have hrest : l.filter (· ≠ k) = l :=
        List.filter_eq_self.mpr fun x hx => by simpa using fun heq : x = k => hnodup.1 (heq ▸ hx)
      rw [List.eraseP_cons_of_pos (by simp), List.filter_cons_of_neg (by simp), hrest]
    · have hslot : ¬ k.slot = kill.slot := fun heq => hk (h.slot_inj hl.1 hmem heq)
      rw [List.eraseP_cons_of_neg (by simpa using hslot),
        List.filter_cons_of_pos (by simpa using hk), ih hl.2 hnodup.2]

theorem Inv.accepted_of_posted (h : Inv s) {e : Entry} (he : e ∈ s.posted) :
    e.kill ∈ s.accepted := by
  by_contra hout
  have hnil := (h.kept e.kill).silent hout
  rw [State.history, List.append_eq_nil_iff] at hnil
  have hmem : e.event ∈ eventsOf e.kill s.posted :=
    List.mem_map.mpr ⟨e, List.mem_filter.mpr ⟨he, by simp⟩, rfl⟩
  rw [hnil.2] at hmem
  cases hmem

theorem Entered.deliver (h : Entered s) (hinv : Inv s) {e : Entry} {posted : List Entry}
    (hp : s.posted = e :: posted) (store : Option InMemoryStore) :
    Entered ({ s with posted := posted }.deliver store e) := by
  have hmem : e.kill ∈ s.accepted := hinv.accepted_of_posted (by rw [hp]; exact List.mem_cons_self)
  rcases e with ⟨kill, event, jobsetIds⟩
  cases event with
  | started | progress | error =>
    intro hj js
    rw [State.deliver, h hj js]
    simp only [State.delivered, eventsOf_append, List.any_append, eventsOf_cons]
    congr 1
    refine List.filter_congr fun k _ => ?_
    split <;> simp [Event.isReport]
  | completed report =>
    intro hj js
    have hsaid :
      ∀ k,
      (({ s with posted := posted }.deliver store ⟨kill, .completed report, jobsetIds⟩).delivered k
        = false) = (s.delivered k = false ∧ k ≠ kill) := fun k => by
      simp only [State.delivered, State.deliver, eventsOf_append, List.any_append,
        eventsOf_cons, ne_comm (a := k)]
      split <;> simp_all [Event.isReport]
    have hold := h hj js
    simp only [hsaid]
    rw [State.deliver]
    dsimp only
    rw [listAt_ledgerRemove]
    by_cases hjs : js = kill.jobsetId
    · have hsub : ∀ k ∈ s.accepted.filter (fun k => k.jobsetId = js ∧ s.delivered k = false),
          k ∈ s.accepted :=
        fun k hk => List.mem_of_mem_filter hk
      rw [if_pos hjs, ← hjs]
      calc ((s.active.listAt js).eraseP fun a => a.slot = kill.slot).map Activity.toKillActivity
          = ((s.active.listAt js).map Activity.toKillActivity).eraseP fun a =>
              a.slot = kill.slot := by
            rw [List.eraseP_map]
            rfl
        _ = ((s.accepted.filter fun k => k.jobsetId = js ∧ s.delivered k = false).map
              Session.toKillActivity).eraseP fun a => a.slot = kill.slot := by rw [hold]
        _ = ((s.accepted.filter fun k => k.jobsetId = js ∧ s.delivered k = false).eraseP
              fun k => k.slot = kill.slot).map Session.toKillActivity := by
            rw [List.eraseP_map]
            rfl
        _ = _ := by
            rw [eraseP_slot hinv hmem hsub (hinv.nodup_accepted.filter _), List.filter_filter]
            congr 1
            refine List.filter_congr fun k _ => ?_
            simp only [Bool.decide_and]
            rw [Bool.and_comm, Bool.and_assoc]
    · rw [if_neg hjs, hold]
      congr 1
      refine List.filter_congr fun k _ => ?_
      have hne : k.jobsetId = js → k ≠ kill := fun hk heq => hjs (hk ▸ heq ▸ rfl)
      simp only [decide_eq_decide]
      tauto

/-! ## Every run -/

variable {py : Python}

theorem sound_settle (hi : Inv s) (he : Entered s) (hwork : s.running.get? kill = some none)
    (outcome : Except Text KillReport) :
    Inv (s.settle kill outcome) ∧ Entered (s.settle kill outcome) := by
  cases outcome with
  | ok report =>
    have hprogress := hi.setProgress kill report.requested report.requested
    exact ⟨hprogress.settle hwork ⟨rfl, rfl⟩,
      (he.setProgress kill report.requested report.requested).congr (fun _ => rfl) rfl rfl rfl⟩
  | error what =>
    exact ⟨hi.settle hwork rfl, he.congr (fun _ => rfl) rfl rfl rfl⟩

theorem sound_step (hi : Inv s) (he : Entered s) {a : Act} (hs : step py s a = some s') :
    Inv s' ∧ Entered s' := by
  cases a with
  | kill jobsetId jobIds =>
    simp only [step] at hs
    split at hs
    case isTrue => exact Option.some.inj hs ▸ ⟨hi, he⟩
    case isFalse hopen =>
      have hjoined : s.joined = false := by
        by_contra hj
        exact hopen (.inr (hi.joined (by simpa using hj)).1)
      split at hs
      case h_1 => exact Option.some.inj hs ▸ ⟨hi, he⟩
      case h_2 pids _ =>
        obtain rfl := Option.some.inj hs
        exact ⟨hi.start hjoined jobsetId pids.reduceOption, he.start hi jobsetId pids.reduceOption⟩
  | begin =>
    simp only [step] at hs
    split at hs
    case h_1 => cases hs
    case h_2 kill waiting hw =>
      obtain rfl := Option.some.inj hs
      exact ⟨hi.begin hw, he.congr (fun _ => rfl) rfl rfl rfl⟩
  | progress kill done total emit =>
    simp only [step] at hs
    split at hs
    case isFalse => cases hs
    case isTrue hwork =>
      have hprogress := hi.setProgress kill done total
      have hset := he.setProgress kill done total
      obtain rfl := Option.some.inj hs
      split
      case isTrue =>
        exact ⟨hprogress.note (works_iff.mp hwork) trivial, hset.congr (fun _ => rfl) rfl rfl rfl⟩
      case isFalse => exact ⟨hprogress, hset⟩
  | settle kill outcome =>
    simp only [step] at hs
    split at hs
    case isFalse => cases hs
    case isTrue hwork =>
      obtain rfl := Option.some.inj hs
      exact sound_settle hi he (works_iff.mp hwork) outcome
  | complete kill =>
    simp only [step] at hs
    split at hs
    case h_1 report hr =>
      obtain rfl := Option.some.inj hs
      exact ⟨hi.complete hr, he.congr (fun _ => rfl) rfl rfl rfl⟩
    case h_2 => cases hs
  | deliver store =>
    simp only [step] at hs
    split at hs
    case h_1 => cases hs
    case h_2 e posted hp =>
      obtain rfl := Option.some.inj hs
      exact ⟨hi.deliver hp store, he.deliver hi hp store⟩
  | close =>
    obtain rfl := Option.some.inj hs
    exact ⟨hi.frame rfl rfl rfl rfl rfl hi.joined, he.congr (fun _ => rfl) rfl rfl rfl⟩
  | shutdown =>
    obtain rfl := Option.some.inj hs
    exact ⟨hi.frame rfl rfl rfl rfl rfl fun hj => ⟨rfl, (hi.joined hj).2⟩,
      he.congr (fun _ => rfl) rfl rfl rfl⟩
  | join =>
    simp only [step] at hs
    split at hs
    case isFalse => cases hs
    case isTrue hdone =>
      obtain rfl := Option.some.inj hs
      refine ⟨hi.frame rfl rfl rfl rfl rfl fun _ => hdone, fun hj => ?_⟩
      cases hj

theorem sound_of_reachable (h : (system py).Reachable s) : Inv s ∧ Entered s := by
  refine h.invariant (I := fun s => Inv s ∧ Entered s) (fun s hinit => ?_)
    fun s a s' _ hsound _ hs => sound_step hsound.1 hsound.2 hs
  obtain rfl : s = {} := hinit
  exact ⟨inv_init, fun _ _ => rfl⟩

/-! ## From its request to its delivery -/

/-- The kill waits, or runs, or its report is on the way. -/
def State.Pending (s : State) (kill : Session) : Prop :=
  kill ∈ s.waiting ∨ kill ∈ s.running.keys ∨ ∃ e ∈ s.posted, e.kill = kill ∧ e.event.isReport = true

instance (s : State) (kill : Session) : Decidable (s.Pending kill) :=
  inferInstanceAs (Decidable (_ ∨ _ ∨ _))

/-- The signals that are about a kill. -/
def State.emitted (s : State) (kill : Session) : List Signal :=
  (s.log.filter fun e => e.kill = kill).flatMap Entry.signals

theorem Opened.take {l r : List Event} (h : Opened (l ++ r))
    (hl : ∃ notes, l = .started :: notes) : Opened l := by
  obtain ⟨said, rfl⟩ := hl
  obtain ⟨notes, hnotes, heq⟩ := h
  obtain rfl := (List.cons.inj heq).2
  exact ⟨said, fun e he => hnotes e (List.mem_append_left _ he), rfl⟩

theorem Kept.opened_or_closed (h : Kept s kill) (hmem : kill ∈ s.accepted) :
    Opened (s.history kill) ∨ Closed kill.jobsetId (s.history kill) := by
  by_cases hw : kill ∈ s.waiting
  · exact .inl ⟨[], by simp, h.queued hw⟩
  rcases hr : s.running.get? kill with - | - | report
  · exact .inr (h.ended hmem hw (Dict.get?_eq_none.mp hr))
  · exact .inl (h.working hr)
  · exact .inl (h.settled report hr).opened

/-- What is heard of a kill that is not delivered has no report. -/
theorem Kept.heard_opened (h : Kept s kill) (hmem : kill ∈ s.accepted)
    (hnot : s.delivered kill = false) :
    Opened (eventsOf kill s.log) := by
  rcases h.opened_or_closed hmem with hopen | ⟨before, report, hsettled, heq⟩
  · exact hopen.take (h.heard hmem)
  rw [State.history] at heq
  rcases List.eq_nil_or_concat (eventsOf kill s.posted) with hnil | ⟨posted, e, hposted⟩
  · rw [hnil, List.append_nil] at heq
    rw [State.delivered, heq] at hnot
    simp [Event.isReport] at hnot
  · rw [hposted, List.concat_eq_append, ← List.append_assoc] at heq
    obtain ⟨hbefore, -⟩ := List.append_inj' heq rfl
    exact Opened.take (hbefore ▸ hsettled.opened) (h.heard hmem)

/-- Of a kill that is delivered everything is heard. -/
theorem Kept.heard_closed (h : Kept s kill) (hmem : kill ∈ s.accepted)
    (hdone : s.delivered kill = true) :
    Closed kill.jobsetId (eventsOf kill s.log) ∧ eventsOf kill s.posted = [] := by
  obtain ⟨e, he, hreport⟩ := List.any_eq_true.mp hdone
  obtain ⟨before, after, hlog⟩ := List.append_of_mem he
  have hh : s.history kill = before ++ e :: (after ++ eventsOf kill s.posted) := by
    rw [State.history, hlog, List.append_assoc, List.cons_append]
  obtain ⟨hclosed, hnil, -⟩ := h.report_last hmem hh hreport
  have hposted := (List.append_eq_nil_iff.mp hnil).2
  rw [State.history, hposted, List.append_nil] at hclosed
  exact ⟨hclosed, hposted⟩

theorem mem_eventsOf {l : List Entry} {e : Event} :
    e ∈ eventsOf kill l ↔ ∃ entry ∈ l, entry.kill = kill ∧ entry.event = e := by
  simp [eventsOf, and_assoc]

theorem pending_iff (h : Inv s) (hmem : kill ∈ s.accepted) :
    s.Pending kill ↔ s.delivered kill = false := by
  have hkept := h.kept kill
  constructor
  · intro hpending
    by_contra hdone
    rw [Bool.not_eq_false] at hdone
    obtain ⟨hclosed, hposted⟩ := hkept.heard_closed hmem hdone
    obtain ⟨e, he, hreport⟩ := List.any_eq_true.mp hdone
    have hnone {events : List Event} (hopen : Opened events)
        (heq : s.history kill = events) : False := by
      have := hopen.not_isReport e (heq ▸ List.mem_append_left _ he)
      rw [hreport] at this
      cases this
    rcases hpending with hw | hr | ⟨entry, hentry, hkill, hreport'⟩
    · exact hnone ⟨[], by simp, rfl⟩ (hkept.queued hw)
    · obtain ⟨phase, hphase⟩ := Dict.mem_keys.mp hr
      cases phase with
      | none => exact hnone (hkept.working hphase) rfl
      | some report => exact hnone (hkept.settled report hphase).opened rfl
    · have := mem_eventsOf.mpr ⟨entry, hentry, hkill, rfl⟩
      rw [hposted] at this
      cases this
  · intro hnot
    by_contra hplace
    rw [State.Pending, not_or, not_or] at hplace
    obtain ⟨hw, hr, hp⟩ := hplace
    obtain ⟨before, report, -, heq⟩ := hkept.ended hmem hw hr
    have hsaid : .completed report ∈ s.history kill := by
      rw [heq]
      exact List.mem_append_right _ (List.mem_singleton_self _)
    rcases List.mem_append.mp hsaid with hlog | hposted
    · have : s.delivered kill = true := List.any_eq_true.mpr ⟨_, hlog, rfl⟩
      rw [hnot] at this
      cases this
    · obtain ⟨entry, hentry, hkill, hevent⟩ := mem_eventsOf.mp hposted
      exact hp ⟨entry, hentry, hkill, by rw [hevent]; rfl⟩

/-- Only a report is told the jobsets it is delivered to. -/
theorem signals_of_not_isReport {entries : List Entry} (h : ∀ e ∈ entries, e.kill = kill)
    (hnot : ∀ e ∈ entries.map Entry.event, e.isReport = false) :
    entries.flatMap Entry.signals = (entries.map Entry.event).flatMap
        (Event.signals kill.jobsetId []) := by
  rw [List.flatMap_map]
  refine List.flatMap_congr fun e he => ?_
  have hevent := hnot e.event (List.mem_map_of_mem he)
  rw [Entry.signals, h e he]
  cases hc : e.event <;> first | rfl | (rw [hc] at hevent; cases hevent)

theorem mem_filter_kill {e : Entry} {l : List Entry} (h : e ∈ l.filter fun e => e.kill = kill) :
    e.kill = kill := by simpa using (List.mem_filter.mp h).2

/-- **Every kill is delivered once.**  What the manager emits about a kill begins with
`kill_started`, goes on with its progress and its errors, and as long as the kill waits, or runs, or
has its report on the way, that is all.  From then on, and only then, there is the report, once and
last: before it come its errors one by one, and before them the whole progress, or the error that it
is about. -/
theorem delivered_once (h : (system py).Reachable s) (hmem : kill ∈ s.accepted) :
    (s.Pending kill ∧ ∃ notes : List Event, (∀ e ∈ notes, e.IsNote) ∧
        s.emitted kill = .killStarted kill.jobsetId :: notes.flatMap
          (Event.signals kill.jobsetId [])) ∨
      (¬ s.Pending kill ∧
        ∃ (notes : List Event) (last : Event) (report : KillReport) (jobsetIds : List String),
        (∀ e ∈ notes, e.IsNote) ∧ Fits kill.jobsetId report last ∧
        s.emitted kill = .killStarted kill.jobsetId :: (notes ++ [last]).flatMap
          (Event.signals kill.jobsetId [])
          ++ report.errors.map (.killFailed kill.jobsetId) ++
              [.killFinished kill.jobsetId report jobsetIds]) := by
  have hinv := (sound_of_reachable h).1
  have hkept := hinv.kept kill
  rcases hd : s.delivered kill with - | -
  · refine .inl ⟨(pending_iff hinv hmem).mpr hd, ?_⟩
    have hopen := hkept.heard_opened hmem hd
    obtain ⟨notes, hnotes, heq⟩ := hopen
    refine ⟨notes, hnotes, ?_⟩
    rw [State.emitted, signals_of_not_isReport (fun e he => mem_filter_kill he)]
    · change (eventsOf kill s.log).flatMap _ = _
      rw [heq]
      rfl
    · exact (hkept.heard_opened hmem hd).not_isReport
  · refine .inr ⟨fun hp => absurd ((pending_iff hinv hmem).mp hp) (by simp [hd]), ?_⟩
    obtain ⟨⟨before, report, ⟨before', last, ⟨notes, hnotes, rfl⟩, hfits, rfl⟩, heq⟩, -⟩ :=
      hkept.heard_closed hmem hd
    obtain ⟨said, reported, hsplit, hsaid, hreported⟩ := List.map_eq_append_iff.mp heq
    obtain ⟨e, rest, rfl, hevent, hrest⟩ := List.map_eq_cons_iff.mp hreported
    obtain rfl := List.map_eq_nil_iff.mp hrest
    have hkill : ∀ x ∈ said ++ [e], x.kill = kill := fun x hx => mem_filter_kill (hsplit ▸ hx)
    have hopen : Opened (said.map Entry.event) :=
      hsaid ▸ (show Opened (.started :: notes) from ⟨notes, hnotes, rfl⟩).concat hfits.isNote
    refine ⟨notes, last, report, e.jobsetIds, hnotes, hfits, ?_⟩
    rw [State.emitted, hsplit, List.flatMap_append,
      signals_of_not_isReport (fun x hx => hkill x (List.mem_append_left _ hx))
        hopen.not_isReport, hsaid]
    have hlast : [e].flatMap Entry.signals =
        report.errors.map (.killFailed kill.jobsetId) ++
            [.killFinished kill.jobsetId report e.jobsetIds] := by
      rw [List.flatMap_singleton, Entry.signals,
        hkill e (List.mem_append_right _ (List.mem_singleton_self _)), hevent]
      rfl
    rw [hlast]
    simp [Event.signals]

/-- A kill that is refused by LSF, from its request to the delivery of its report. -/
def refused : List Act :=
  let kill : Session := { slot := 0, jobIds := [], jobsetId := "js" }
  [.kill "js" [], .begin, .progress kill 1 1 true, .deliver none,
    .settle kill
      (.ok { jobsetId := "js", requested := 1, unconfirmed := 1, errors := ["refused".toList] }),
    .complete kill, .deliver none, .deliver none]

theorem delivered_once_refused : ∃ s, (system Python.ascii).run {} refused = some s ∧
    ∃ (notes : List Event) (last : Event) (report : KillReport) (jobsetIds : List String),
      (∀ e ∈ notes, e.IsNote) ∧ Fits "js" report last ∧
      s.emitted { slot := 0, jobIds := [], jobsetId := "js" } =
        .killStarted "js" :: (notes ++ [last]).flatMap (Event.signals "js" [])
          ++ report.errors.map (.killFailed "js") ++ [.killFinished "js" report jobsetIds] := by
  refine ⟨_, rfl, ?_⟩
  have hrun : (system Python.ascii).run {} refused = some _ := rfl
  have hreach := System.reachable_of_run (.init rfl) hrun
  have hdelivered := delivered_once hreach (List.mem_singleton_self _)
  exact (hdelivered.resolve_left fun hp => absurd hp.1 (by decide)).2

/-- **A kill is under way until it is delivered**: until the killer is shut down, the ledger of a
jobset has the kills that were asked for it and wait, run, or have their report on the way, in the
order of their requests; so this is what `is_killing` and `kill_state` answer by, and what a
completion waits for. -/
theorem killing_until_delivered (h : (system py).Reachable s) (hopen : s.joined = false)
    (jobsetId : String) :
    (s.active.listAt jobsetId).map Activity.toKillActivity =
        (s.accepted.filter fun k => k.jobsetId = jobsetId ∧ s.Pending k).map
          Session.toKillActivity ∧
      (s.isActive jobsetId = true ↔ ∃ k ∈ s.accepted, k.jobsetId = jobsetId ∧ s.Pending k) ∧
      (s.progressSnapshot jobsetId).isSome = s.isActive jobsetId ∧
      ∀ records : List JobRecord, s.blocksCompletion jobsetId records = true ↔
        ∃ k ∈ s.accepted, s.Pending k ∧
        (k.jobsetId = jobsetId ∨ k.jobsetId = "" ∧ k.Touches records) := by
  obtain ⟨hinv, hentered⟩ := sound_of_reachable h
  have hledger : ∀ js, (s.active.listAt js).map Activity.toKillActivity =
      (s.accepted.filter fun k => k.jobsetId = js ∧ s.Pending k).map Session.toKillActivity :=
        fun js => by
    rw [hentered hopen js]
    congr 1
    refine List.filter_congr fun k hk => ?_
    simp only [pending_iff hinv hk]
  have hmem : ∀ js (a : KillActivity), a ∈ (s.active.listAt js).map Activity.toKillActivity ↔
      ∃ k ∈ s.accepted, (k.jobsetId = js ∧ s.Pending k) ∧ k.toKillActivity = a := fun js a => by
    rw [hledger]
    simp [and_assoc]
  have hactive : ∀ js, (s.active.listAt js).map Activity.toKillActivity ≠ [] ↔
      ∃ k ∈ s.accepted, k.jobsetId = js ∧ s.Pending k := fun js => by
    constructor
    · intro hne
      obtain ⟨a, ha⟩ := List.exists_mem_of_ne_nil _ hne
      obtain ⟨k, hk, hplace, -⟩ := (hmem js a).mp ha
      exact ⟨k, hk, hplace⟩
    · rintro ⟨k, hk, hplace⟩
      exact List.ne_nil_of_mem ((hmem js k.toKillActivity).mpr ⟨k, hk, hplace, rfl⟩)
  have hlist : ∀ js, (s.active.mapValues fun _ l => l.map Activity.toKillActivity).listAt js =
      (s.active.listAt js).map Activity.toKillActivity := fun js => listAt_mapValues _ _ rfl js
  refine ⟨hledger jobsetId, ?_, ?_, fun records => ?_⟩
  · rw [State.isActive, ← hactive]
    simp
  · by_cases hnil :
      s.active.listAt jobsetId = [] <;> simp [State.progressSnapshot, State.isActive, hnil]
  · rw [State.blocksCompletion, Completion.blocksCompletion, hlist, hlist,
      Bool.or_eq_true, List.any_eq_true]
    have hown : (!((s.active.listAt jobsetId).map Activity.toKillActivity).isEmpty) = true ↔
        ∃ k ∈ s.accepted, k.jobsetId = jobsetId ∧ s.Pending k := by
      rw [← hactive]
      simp
    have hglobal : (∃ a ∈ (s.active.listAt "").map Activity.toKillActivity,
          (records.any fun r => r.jobId.any fun id => id ∈ a.jobIds) = true) ↔
        ∃ k ∈ s.accepted, (k.jobsetId = "" ∧ s.Pending k) ∧ k.Touches records := by
      constructor
      · rintro ⟨a, ha, htouch⟩
        obtain ⟨k, hk, hplace, rfl⟩ := (hmem "" a).mp ha
        refine ⟨k, hk, hplace, ?_⟩
        simpa [KillActivity.Touches, Option.any_eq_true] using htouch
      · rintro ⟨k, hk, hplace, htouch⟩
        refine ⟨k.toKillActivity, (hmem "" _).mpr ⟨k, hk, hplace, rfl⟩, ?_⟩
        simpa [KillActivity.Touches, Option.any_eq_true] using htouch
    rw [hown, hglobal]
    constructor
    · rintro (⟨k, hk, hjs, hplace⟩ | ⟨k, hk, ⟨hjs, hplace⟩, htouch⟩)
      · exact ⟨k, hk, hplace, .inl hjs⟩
      · exact ⟨k, hk, hplace, .inr ⟨hjs, htouch⟩⟩
    · rintro ⟨k, hk, hplace, hjs | ⟨hjs, htouch⟩⟩
      · exact .inl ⟨k, hk, hjs, hplace⟩
      · exact .inr ⟨k, hk, ⟨hjs, hplace⟩, htouch⟩

theorem killing_until_delivered_global :
    ∃ s, (system Python.ascii).run {} [.kill "" ["7".toList]] = some s ∧
    s.blocksCompletion "js"
        [{ jobsetId := "js", jobKey := "k", jobId := some 7, generation := 1 }] = true := by
  have hpids : ["7".toList].mapM (targetParentId Python.ascii) = .ok [some 7] := by decide +kernel
  have hrun :
      (system Python.ascii).run {} [.kill "" ["7".toList]] = some (({} : State).start "" [7]) := by
    change (step Python.ascii {} (.kill "" ["7".toList])).bind some = _
    simp only [step, hpids]
    rfl
  refine ⟨_, hrun, ?_⟩
  refine
    ((killing_until_delivered (System.reachable_of_run (.init rfl) hrun) rfl "js").2.2.2 _).mpr ?_
  exact ⟨⟨⟨0, [7]⟩, ""⟩, by decide, by decide,
    .inr ⟨rfl, _, List.mem_singleton_self _, 7, rfl, by decide⟩⟩

end Lsfmgr.Kill.Sessions
