import Mathlib
import Lsfmgr.Submit.Published

/-!
# Submit/Reentry — slots that call back while a progress is emitted

`_emit_progress` empties the buffer, emits `progress` and then publishes what it took, all under
`ctx.lock`.  That lock is an `RLock`: a slot connected directly runs in the emitting thread, and
what it calls may take the lock again.  A `Frame` is such an emission while its slots run; it holds
its batch back.

A run of `nested` follows a run of `audited` in which every emission is one step (`Follows`): of
each key it has published the same records less those held back, as long as nothing overtakes a
record held back (`Nested.InTurn`).  Where something does, the cycle can be finished before its last
batch (`overtaken_twoJobs`).

The other emissions need no frame: that of `_finish_if_done` finds the cycle finished, and nothing
is held back behind a `jobs_changed`.
-/

namespace Lsfmgr.Submit

open Machinery

/-! ## Frames, and who may take the lock -/

/-- An emission of `progress` whose slots run in the emitting thread. -/
structure Frame where
  cycle : ℕ
  /-- The outermost frame of the same call stack. -/
  root : ℕ
  /-- Taken from the buffer, and published when the slots have returned. -/
  batch : List JobRecord
  returned : Bool := false

/-- Where a thread of the submitter runs. -/
structure Place where
  /-- In a call made by the slot of this frame; `none` on a stack of its own. -/
  inside : Option ℕ := none
  /-- Behind the slots of this frame. -/
  behind : Option ℕ := none

/-- The submission system with the frames of its emissions; `places` goes with the threads. -/
structure Nested where
  sys : Audited
  places : List Place := []
  frames : List Frame := []

inductive Call
  /-- A step of the system that no slot has called for. -/
  | run (a : Act)
  /-- A step that the slot of this frame makes. -/
  | slot (f : ℕ) (a : Act)
  /-- The thread at this index emits `progress`, and slots run. -/
  | emit (i : ℕ) (o : Oracle)
  /-- The slots of this frame have returned. -/
  | slotsReturn (f : ℕ)

/-- `_emit_progress` gets past its two tests. -/
def Cycle.Emits (cyc : Cycle) (o : Oracle) : Prop :=
  cyc.finished = false ∧ (o.emit = true ∨ cyc.total ≤ cyc.done)

/-- `_finish_if_done` gets past its test. -/
def Cycle.Ends (cyc : Cycle) (force : Bool) : Prop :=
  cyc.finished = false ∧ (cyc.total ≤ cyc.done ∨ force = true)

instance (cyc : Cycle) (o : Oracle) : Decidable (cyc.Emits o) := by
  unfold Cycle.Emits; infer_instance

instance (cyc : Cycle) (force : Bool) : Decidable (cyc.Ends force) := by
  unfold Cycle.Ends; infer_instance

/-- The instruction takes `ctx.lock`. -/
def Instr.locks (o : Oracle) (cyc : Cycle) : Instr → Bool
  | enter .. | leave _ | failed .. | retried _ | note _ | emitProgress _ | finishIfDone _
  | readBlocked | checkFinished _ | finishForced .. => true
  | slotWait .. => o.stop && !cyc.cancelEvent
  | slotHeld .. => !cyc.cancelEvent
  | count ks _ _ => !ks.isEmpty
  | newContext reg _ => reg.activity && reg.refused ≠ ∅
  | _ => false

/-- The cycle whose `ctx.lock` a step takes. -/
def State.lockOf (s : State) : Act → Option ℕ
  | .thread i o =>
    match s.threads[i]? with
    | some ⟨c, x :: _⟩ => if (s.shared.cycles[c]?).any (x.locks o) then some c else none
    | _ => none
  | .kill j _ =>
    match s.kills[j]? with
    | some ⟨some _, .cancelling _ (c :: _) false⟩ => some c
    | some ⟨scope, .waiting (c :: _) _⟩ => if scope = some ∅ then none else some c
    | _ => none
  | _ => none

namespace Nested

/-- The slots of the frame have not returned. -/
def running (s : Nested) (f : ℕ) : Bool := (s.frames[f]?).any fun fr => !fr.returned

/-- The lock the step takes is free, or held by the stack it runs on. -/
def mayTake (s : Nested) (inside : Option ℕ) (a : Act) : Bool :=
  (s.sys.base.lockOf a).all fun c => s.frames.all fun fr =>
    fr.cycle != c || fr.returned || (inside.bind fun f => s.frames[f]?).any
      fun g => g.root == fr.root

def place (s : Nested) (i : ℕ) : Place := (s.places[i]?).getD {}

/-- A thread is not behind slots that still run; whoever takes a lock may. -/
def mayRun (s : Nested) : Act → Bool
  | .thread i o => !(s.place i).behind.any s.running && s.mayTake (s.place i).inside (.thread i o)
  | a => s.mayTake none a

/-- The slots of the frame run, and no call they have made is under way. -/
def idle (s : Nested) (f : ℕ) : Bool :=
  s.running f && (s.sys.base.threads.zip s.places).all fun (t, p) =>
    p.inside != some f || t.code.isEmpty && !p.behind.any s.running

/-- What is called in the slot and goes on there: the settling of the retries that were aborted. -/
def calledIn (f : ℕ) : Act → Place
  | .abortRetries .. | .kill .. => { inside := some f }
  | _ => {}

/-- A step of the system; `p` is the place of the threads it adds. -/
def base (P : Params) (s : Nested) (a : Act) (p : Place) : Option Nested :=
  ((audited P).step s.sys a).map fun b =>
    let new := List.replicate (b.base.threads.length - s.sys.base.threads.length)
    { s with
      sys := b
      places := match a with
        | .thread i _ => replaceAt s.places i (s.place i :: new {})
        | _ => s.places ++ new p }

/-- `_emit_progress` up to its slots: the buffer is empty, and `progress` is out. -/
def emit (s : Nested) (i : ℕ) (o : Oracle) : Option Nested :=
  match s.sys.base.threads[i]? with
  | some ⟨c, .emitProgress true :: rest⟩ =>
    match s.sys.base.shared.cycles[c]? with
    | some cyc =>
      if cyc.Emits o then
        let w := s.sys.base.shared
        let inside := (s.place i).inside
        some
          { sys := { s.sys with base := { s.sys.base with
              shared := w.apply c { Effect.pass cyc w with
                cyc := { cyc with changedBuffer := [] }
                signals := [.progress cyc.done cyc.total] }
              threads := replaceAt s.sys.base.threads i [⟨c, rest⟩] } }
            places := replaceAt s.places i [{ inside, behind := some s.frames.length }]
            frames := s.frames ++ [
              { cycle := c
                root := ((inside.bind fun f => s.frames[f]?).map Frame.root).getD s.frames.length
                batch := cyc.changedBuffer }] }
      else none
    | none => none
  | _ => none

/-- The rest of `_emit_progress`. -/
def slotsReturn (s : Nested) (f : ℕ) : Option Nested :=
  (s.frames[f]?).map fun fr =>
    let w := s.sys.base.shared
    { s with
      sys := { s.sys with base := { s.sys.base with
        shared := { w with log := w.log ++ (batch fr.batch).map fun sig => (fr.cycle, sig) } } }
      frames := s.frames.set f { fr with returned := true } }

def step (P : Params) (s : Nested) : Call → Option Nested
  | .run a => if s.mayRun a then s.base P a {} else none
  | .slot f a =>
    if s.idle f ∧ a.ran = none ∧ s.mayTake (some f) a then s.base P a (calledIn f a) else none
  | .emit i o => if s.mayRun (.thread i o) then s.emit i o else none
  | .slotsReturn f => if s.idle f then s.slotsReturn f else none

/-- The frames of the cycle whose slots run. -/
def openOf (s : Nested) (c : ℕ) : List Frame :=
  s.frames.filter fun fr => fr.cycle = c ∧ fr.returned = false

/-- What the emissions of the cycle hold back. -/
def held (s : Nested) (c : ℕ) : List JobRecord := (s.openOf c).flatMap Frame.batch

/-- No record overtakes one held back: the buffer is not flushed while it has a record of a key of
which one is held back, and the cycle is not finished while any is. -/
def InTurn (s : Nested) : Call → Prop
  | .run (.thread i o) | .emit i o =>
    match s.sys.base.threads[i]? with
    | some ⟨c, .emitProgress _ :: _⟩ =>
      ∀ cyc ∈ s.sys.base.shared.cycles[c]?, cyc.Emits o →
        ∀ r ∈ s.held c, ∀ r' ∈ cyc.changedBuffer, r.jobKey ≠ r'.jobKey
    | some ⟨c, .finishIfDone force :: _⟩ =>
      ∀ cyc ∈ s.sys.base.shared.cycles[c]?, cyc.Ends force → s.held c = []
    | _ => True
  | _ => True

instance (s : Nested) (call : Call) : Decidable (s.InTurn call) := by
  unfold InTurn
  repeat' split
  all_goals infer_instance

/-- The lock keeps everyone off the cycle who is not called by one of its slots… -/
theorem held_of_mayTake {s : Nested} {a : Act} {c : ℕ} (hlock : s.sys.base.lockOf a = some c)
    (h : s.mayTake none a = true) : s.held c = [] := by
  simp only [mayTake, hlock, Option.all_some, List.all_eq_true, Option.bind_none, Option.any_none,
    Bool.or_false, Bool.or_eq_true, bne_iff_ne] at h
  have hopen : s.openOf c = [] := List.filter_eq_nil_iff.mpr fun fr hfr => by
    rcases h fr hfr with hc | hret
    · simp [hc]
    · simp [hret]
  rw [held, hopen, List.flatMap_nil]

/-- …so that a thread which no slot has called for is in turn. -/
theorem inTurn_of_outside {s : Nested} {i : ℕ} {o : Oracle}
    (h : s.mayRun (.thread i o) = true) (hout : (s.place i).inside = none) :
    s.InTurn (.run (.thread i o)) := by
  have htake : s.mayTake none (.thread i o) = true := by
    rw [mayRun, hout, Bool.and_eq_true] at h
    exact h.2
  have hheld : ∀ {c x rest cyc}, s.sys.base.threads[i]? = some ⟨c, x :: rest⟩ →
      cyc ∈ s.sys.base.shared.cycles[c]? → x.locks o cyc = true → s.held c = [] := by
    intro c x rest cyc hi hc hlocks
    refine held_of_mayTake ?_ htake
    have hc : s.sys.base.shared.cycles[c]? = some cyc := hc
    simp [State.lockOf, hi, hc, hlocks]
  rw [InTurn]
  split
  case h_1 c b rest hi =>
    intro cyc hc _ r hr
    rw [hheld hi hc rfl] at hr
    cases hr
  case h_2 c force rest hi => exact fun cyc hc _ => hheld hi hc rfl
  case h_3 => trivial

end Nested

/-- The submission system whose slots may call back. -/
def nested (P : Params) : System Nested Call where
  init s := (audited P).init s.sys ∧ s.places = [] ∧ s.frames = []
  step := Nested.step P

/-! ## Signals that come late -/

/-- What is published of a cycle when the records `h` are held back, against `v`, where every
emission is one step. -/
structure Delayed (v s : List Signal) (h : List JobRecord) : Prop where
  early : v.filterMap Signal.reset? = [] → s = v ∧ h = []
  /-- Only batches come late. -/
  others : s.filter (fun sig => sig.batch?.isNone) = v.filter fun sig => sig.batch?.isNone
  records : ∀ k, recordsAt k (published v) = recordsAt k (published s ++ h)
  ended : v.filterMap Signal.reset? ≠ [] → ∀ before rep after, s = before ++
    .finished rep :: after →
    after.filterMap Signal.batch? = [] ∧ h = []

/-- What is shown after the end has no batch. -/
def Sealed (v : List Signal) : Prop :=
  ∀ before rep after, v = before ++ Signal.finished rep :: after →
    after.filterMap Signal.batch? = []

/-- A list is split in one way only at the element with a property, if there is one. -/
theorem split_unique {α : Type} {p : α → Prop} {a b a' b' : List α} {x x' : α}
    (h : a ++ x :: b = a' ++ x' :: b') (hx : p x) (hx' : p x')
    (hno : ∀ y ∈ a' ++ b', ¬p y) : a = a' ∧ x = x' ∧ b = b' := by
  rcases List.append_eq_append_iff.mp h with ⟨d, rfl, hd⟩ | ⟨d, rfl, hd⟩
  · cases d with
    | nil =>
      obtain ⟨rfl, rfl⟩ := List.cons.inj hd
      simp
    | cons y d =>
      obtain ⟨rfl, -⟩ := List.cons.inj hd
      exact absurd hx (hno _ (by simp))
  · cases d with
    | nil =>
      obtain ⟨rfl, rfl⟩ := List.cons.inj hd
      simp
    | cons y d =>
      obtain ⟨rfl, rfl⟩ := List.cons.inj hd
      exact absurd hx (hno x (by simp))

/-- The element stands in the one half or in the other. -/
theorem split_append {α : Type} {s n a b : List α} {x : α} (h : s ++ n = a ++ x :: b) :
    (∃ d, s = a ++ x :: d ∧ b = d ++ n) ∨ ∃ d, a = s ++ d ∧ n = d ++ x :: b := by
  rcases List.append_eq_append_iff.mp h with ⟨d, hd, hn⟩ | ⟨d, hs, hd⟩
  · exact .inr ⟨d, hd, hn⟩
  · cases d with
    | nil => exact .inr ⟨[], by simpa using hs.symm, hd.symm⟩
    | cons y d =>
      obtain ⟨rfl, rfl⟩ := List.cons.inj hd
      exact .inl ⟨d, hs, rfl⟩

theorem filter_batch (rs : List JobRecord) :
    (batch rs).filter (fun sig => sig.batch?.isNone) = [] := by
  rw [batch]
  split <;> simp [Signal.batch?]

theorem reset_batch (rs : List JobRecord) : (batch rs).filterMap Signal.reset? = [] := by
  rw [batch]
  split <;> simp [Signal.reset?]

theorem published_batch (rs : List JobRecord) : published (batch rs) = rs := (batches_batch rs).1

theorem finished_not_mem_batch (rs : List JobRecord) (rep : SubmitReport) :
    Signal.finished rep ∉ batch rs := by
  rw [batch]
  split <;> simp

theorem batch_eq_nil {rs : List JobRecord} (h : (batch rs).filterMap Signal.batch? = []) :
    rs = [] := by
  by_contra hne
  simp [batch, hne, Signal.batch?] at h

/-- What can be read off everything but the batches. -/
theorem filterMap_others {β : Type} {f : Signal → Option β} (hf : ∀ rs, f (.jobsChanged rs) = none)
    (sigs : List Signal) :
    (sigs.filter fun sig => sig.batch?.isNone).filterMap f = sigs.filterMap f := by
  rw [List.filterMap_filter]
  refine List.filterMap_congr fun sig _ => ?_
  cases sig <;> simp [Signal.batch?, hf]

namespace Delayed

variable {v s : List Signal} {h : List JobRecord}

theorem nil : Delayed [] [] [] where
  early _ := ⟨rfl, rfl⟩
  others := rfl
  records _ := rfl
  ended hr := absurd rfl hr

theorem finished_iff (D : Delayed v s h) (rep : SubmitReport) :
    Signal.finished rep ∈ s ↔ Signal.finished rep ∈ v := by
  have hmem : ∀ l : List Signal, Signal.finished rep ∈ l ↔
      Signal.finished rep ∈ l.filter fun sig => sig.batch?.isNone := by
    simp [Signal.batch?]
  rw [hmem s, hmem v, D.others]

/-- After the end nothing more is published, late or not. -/
theorem quiet_of_finished (D : Delayed v s h) {rep : SubmitReport} (hmem : Signal.finished rep ∈ s)
    {n : List Signal} (hsealed : Sealed (v ++ n)) : n.filterMap Signal.batch? = [] := by
  obtain ⟨before, after, rfl⟩ := List.append_of_mem ((D.finished_iff rep).mp hmem)
  have := hsealed before rep (after ++ n) (by simp)
  rw [List.filterMap_append, List.append_eq_nil_iff] at this
  exact this.2

/-- Signals that overtake no record held back. -/
theorem append (D : Delayed v s h) {n : List Signal}
    (hsealed : (v ++ n).filterMap Signal.reset? ≠ [] → Sealed (v ++ n))
    (hapart : ∀ k, recordsAt k h = [] ∨ recordsAt k (published n) = [])
    (hend : ∀ rep, Signal.finished rep ∈ n → h = []) : Delayed (v ++ n) (s ++ n) h where
  early hr := by
    rw [List.filterMap_append, List.append_eq_nil_iff] at hr
    obtain ⟨rfl, rfl⟩ := D.early hr.1
    exact ⟨rfl, rfl⟩
  others := by rw [List.filter_append, List.filter_append, D.others]
  records k := by
    have hk := D.records k
    simp only [published_append, recordsAt_append] at hk ⊢
    rcases hapart k with hh | hn
    · simp [hk, hh]
    · simp [hk, hn]
  ended hr before rep after heq := by
    by_cases hv : v.filterMap Signal.reset? = []
    · obtain ⟨rfl, rfl⟩ := D.early hv
      exact ⟨hsealed hr _ _ _ heq, rfl⟩
    · rcases split_append heq with ⟨d, rfl, rfl⟩ | ⟨d, rfl, rfl⟩
      · obtain ⟨hd, hh⟩ := D.ended hv _ _ _ rfl
        have hn := D.quiet_of_finished (List.mem_append_right _ List.mem_cons_self) (hsealed hr)
        exact ⟨by rw [List.filterMap_append, hd, hn]; rfl, hh⟩
      · -- the end is among the new signals
        exact ⟨hsealed hr (v ++ d) rep after (by simp), hend rep (by simp)⟩

/-- A progress whose batch is held back. -/
theorem emit (D : Delayed v s h) {done total : ℕ} {rs : List JobRecord}
    (hsealed : v.filterMap Signal.reset? ≠ [] → Sealed (v ++ (.progress done total :: batch rs)))
    (hearly : v.filterMap Signal.reset? = [] → rs = []) :
    Delayed (v ++ (.progress done total :: batch rs)) (s ++ [.progress done total]) (h ++ rs) where
  early hr := by
    rw [List.filterMap_append, List.append_eq_nil_iff] at hr
    obtain ⟨rfl, rfl⟩ := D.early hr.1
    obtain rfl := hearly hr.1
    exact ⟨rfl, rfl⟩
  others := by
    have hn : (Signal.progress done total :: batch rs).filter (fun sig => sig.batch?.isNone)
        = [.progress done total] := congrArg _ (filter_batch rs)
    rw [List.filter_append, List.filter_append, D.others, hn]
    rfl
  records k := by
    have hk := D.records k
    have hp : published (.progress done total :: batch rs) = rs := published_batch rs
    have hp' : published [.progress done total] = [] := rfl
    simp only [published_append, recordsAt_append, hp, hp'] at hk ⊢
    simp [hk]
  ended hr before rep after heq := by
    have hv : v.filterMap Signal.reset? ≠ [] := by
      intro hv
      rw [List.filterMap_append, hv, List.filterMap_cons, reset_batch] at hr
      exact hr rfl
    rcases split_append heq with ⟨d, rfl, rfl⟩ | ⟨d, rfl, hd⟩
    · obtain ⟨hd, rfl⟩ := D.ended hv _ _ _ rfl
      have hn := D.quiet_of_finished (List.mem_append_right _ List.mem_cons_self) (hsealed hv)
      exact ⟨by simpa [Signal.batch?] using hd, batch_eq_nil (by simpa [Signal.batch?] using hn)⟩
    · have : Signal.finished rep ∈ [Signal.progress done total] := hd ▸ by simp
      simp at this

/-- A batch that was held back is published. -/
theorem release {pre rs post : List JobRecord} (D : Delayed v s (pre ++ rs ++ post))
    (hapart : ∀ k, recordsAt k rs = [] ∨ recordsAt k (pre ++ post) = []) :
    Delayed v (s ++ batch rs) (pre ++ post) where
  early hr := by
    obtain ⟨rfl, hnil⟩ := D.early hr
    simp only [List.append_eq_nil_iff] at hnil
    simp [hnil, batch]
  others := by rw [List.filter_append, filter_batch, List.append_nil, D.others]
  records k := by
    rw [D.records k]
    have hk := hapart k
    simp only [published_append, recordsAt_append, published_batch] at hk ⊢
    rcases hk with hk | hk
    · simp [hk]
    · rw [List.append_eq_nil_iff] at hk
      simp [hk]
  ended hr before rep after heq := by
    rcases split_append heq with ⟨d, rfl, rfl⟩ | ⟨d, rfl, hd⟩
    · obtain ⟨hd, hnil⟩ := D.ended hr _ _ _ rfl
      simp only [List.append_eq_nil_iff] at hnil
      simp [hd, hnil, batch]
    · exact absurd (hd ▸ by simp) (finished_not_mem_batch rs rep)

end Delayed

/-! ## No step reads the log -/

def State.relog (s : State) (l : List (ℕ × Signal)) : State :=
  { s with shared := { s.shared with log := l } }

theorem exec_relog (P : Params) (o : Oracle) (c : ℕ) (cyc : Cycle) (w : Shared)
    (l : List (ℕ × Signal)) (x : Instr) :
    exec P o c cyc { w with log := l } x = exec P o c cyc w x := by
  cases x <;> rfl

theorem State.write_relog {α : Type} (s : State) (l : List (ℕ × Signal))
    (r : Except StoreError (α × InMemoryStore)) :
    (s.relog l).write r = (s.write r).map fun b => b.relog l := by
  cases r <;> rfl

theorem cancelScope_relog (w : Shared) (l : List (ℕ × Signal)) (c : ℕ) (scope : Scope) :
    { w with log := l }.cancelScope c scope = { w.cancelScope c scope with log := l } := by
  simp only [Shared.cancelScope]
  split <;> rfl

theorem abortRetries_relog (w : Shared) (l : List (ℕ × Signal)) (c : ℕ) (scope : Scope)
    (how : Settlement) (reason : String) :
    { w with log := l }.abortRetries c scope how reason
      = ({ (w.abortRetries c scope how reason).1 with log := l },
          (w.abortRetries c scope how reason).2) := by
  simp only [Shared.abortRetries]
  split <;> rfl

theorem stepKill_relog (s : State) (l : List (ℕ × Signal)) (j : ℕ) (timeout : Bool) :
    (s.relog l).stepKill j timeout = (s.stepKill j timeout).map fun b => b.relog l := by
  have hkills : (s.relog l).kills = s.kills := rfl
  have hbusy : ∀ c scope, (s.relog l).shared.busy c scope = s.shared.busy c scope :=
    fun _ _ => rfl
  rw [State.stepKill, State.stepKill, hkills]
  rcases s.kills[j]? with _ | ⟨scope, phase⟩
  · rfl
  cases phase with
  | cancelling acts todo flagged =>
    rcases todo with _ | ⟨c, todo⟩
    · rfl
    cases flagged with
    | false =>
      simp only [State.relog, cancelScope_relog, Option.map_some]
      rfl
    | true =>
      simp only [State.relog, abortRetries_relog, Option.map_some]
      rfl
  | waiting todo ok =>
    rcases todo with _ | ⟨c, todo⟩
    · rfl
    simp only [hbusy]
    split
    · rfl
    · split <;> rfl
  | _ => rfl

section Relog

variable (s : State) (l : List (ℕ × Signal))

@[simp] theorem store_relog : (s.relog l).shared.store = s.shared.store := rfl

@[simp] theorem cycles_relog : (s.relog l).shared.cycles = s.shared.cycles := rfl

@[simp] theorem isActive_relog : (s.relog l).shared.isActive = s.shared.isActive := rfl

@[simp] theorem shutdown_relog : (s.relog l).shared.shutdown = s.shared.shutdown := rfl

@[simp] theorem newRecord_relog (P : Params) (k : Key) (command : String)
    (data cwd : Option String) :
    (s.relog l).shared.newRecord P k command data cwd
      = s.shared.newRecord P k command data cwd := rfl

end Relog

/-- A step that is not a thread's logs nothing and reads no log. -/
theorem step_relog {P : Params} {s : State} {a : Act} (ha : a.ran = none)
    (l : List (ℕ × Signal)) :
    State.step P (s.relog l) a = (State.step P s a).map fun b => b.relog l := by
  cases a
  case thread => cases ha
  case kill j timeout => exact stepKill_relog s l j timeout
  case submit only maxRetry workers preSubmit =>
    rw [State.step, State.step, State.submit, State.submit, store_relog]
    by_cases hact : s.shared.isActive ∨ s.shared.shutdown
    · have hact' : (s.relog l).shared.isActive ∨ (s.relog l).shared.shutdown := hact
      rw [if_pos hact, if_pos hact']
      rfl
    · have hact' : ¬((s.relog l).shared.isActive ∨ (s.relog l).shared.shutdown) := hact
      rw [if_neg hact, if_neg hact']
      split <;> rfl
  case cancelSubmit =>
    have hcontexts : (s.relog l).shared.contexts = s.shared.contexts := rfl
    simp only [State.step, hcontexts, Option.map_map]
    congr 1
    funext c
    exact congrArg (fun shared => { s with shared }) (cancelScope_relog s.shared l c none)
  case abortRetries c how =>
    simp only [State.step, cycles_relog, shutdown_relog]
    rcases s.shared.cycles[c]? with _ | cyc
    · rfl
    by_cases hc : cyc.cancelEvent ∧ (how = .shutDown → s.shared.shutdown)
    · exact (if_pos hc).trans
        (by simp only [if_pos hc, State.relog, abortRetries_relog, Option.map_some])
    · exact (if_neg hc).trans (by simp only [if_neg hc, Option.map_none])
  case shutdown | newKill | removeJobset => rfl
  case refuseKill j =>
    have hkills : (s.relog l).kills = s.kills := rfl
    simp only [State.step, hkills]
    split <;> rfl
  case poll rec st ru cc now =>
    simp only [State.step, store_relog, State.write_relog]
    split
    · split <;> rfl
    · rfl
  case addJob | replaceJob =>
    simp only [State.step, store_relog, isActive_relog, newRecord_relog, State.write_relog]
    split
    · rfl
    · simp only [Option.map_map]
      rfl
  case setUserData | removeJob => exact State.write_relog s l _
  all_goals
    simp only [State.step, store_relog, State.write_relog]
    split <;> rfl

def Audited.relog (s : Audited) (l : List (ℕ × Signal)) : Audited :=
  { s with base := s.base.relog l }

theorem stepThread_eq_some {P : Params} {s b : State} {i : ℕ} {o : Oracle} :
    s.stepThread P i o = some b ↔ ∃ c x rest cyc e, s.threads[i]? = some ⟨c, x :: rest⟩ ∧
      s.shared.cycles[c]? = some cyc ∧ exec P o c cyc s.shared x = some e ∧
      b = { s with
        shared := s.shared.apply c e
        threads := replaceAt s.threads i (⟨c, e.code ++ rest⟩ :: e.spawned.map (Thread.mk c))
            } := by
  constructor
  · intro h
    rw [State.stepThread] at h
    split at h
    case h_1 => cases h
    case h_2 t ht =>
      obtain ⟨c, code⟩ := t
      split at h
      case h_1 x rest cyc hcode hcyc =>
        obtain rfl : code = x :: rest := hcode
        obtain ⟨e, he, rfl⟩ := Option.map_eq_some_iff.mp h
        exact ⟨c, x, rest, cyc, e, ht, hcyc, he, rfl⟩
      case h_2 => cases h
  · rintro ⟨c, x, rest, cyc, e, ht, hcyc, he, rfl⟩
    simp only [State.stepThread, ht, hcyc, he, Option.map_some]

/-- A step that is not a thread's is one of the other run too. -/
theorem audited_other {P : Params} {s b : Audited} {a : Act} (ha : a.ran = none)
    (h : (audited P).step s a = some b) (l : List (ℕ × Signal)) :
    b.base.shared.log = s.base.shared.log ∧
      (audited P).step (s.relog l) a = some (b.relog l) := by
  obtain ⟨t, ht, rfl⟩ := Option.map_eq_some_iff.mp h
  have hret : ∀ w w' ts, returnedBy P w w' ts a.ran = [] := by
    intro w w' ts
    rw [ha]
    rfl
  constructor
  · have hsame : some t = some (t.relog s.base.shared.log) := by
      have := step_relog (P := P) (s := s.base) ha s.base.shared.log
      rwa [show s.base.relog s.base.shared.log = s.base from rfl, ht] at this
    have hlog : t.shared.log = (t.relog s.base.shared.log).shared.log :=
      congrArg (fun t : State => t.shared.log) (Option.some.inj hsame)
    exact hlog
  · change (State.step P (s.base.relog l) a).map _ = _
    rw [step_relog ha, ht]
    simp only [Option.map_some, hret]
    rfl

/-- So is the instruction of a thread. -/
theorem audited_thread {P : Params} {s b : Audited} {i : ℕ} {o : Oracle}
    (h : (audited P).step s (.thread i o) = some b) : ∃ c x rest cyc e,
      s.base.threads[i]? = some ⟨c, x :: rest⟩ ∧ s.base.shared.cycles[c]? = some cyc ∧
      exec P o c cyc s.base.shared x = some e ∧
      b.base.shared.log = s.base.shared.log ++ e.signals.map (fun sig => (c, sig)) ∧
      ∀ l, (audited P).step (s.relog l) (.thread i o)
        = some (b.relog (l ++ e.signals.map fun sig => (c, sig))) := by
  obtain ⟨t, ht, rfl⟩ := Option.map_eq_some_iff.mp h
  obtain ⟨c, x, rest, cyc, e, hi, hcyc, he, rfl⟩ := stepThread_eq_some.mp ht
  refine ⟨c, x, rest, cyc, e, hi, hcyc, he, rfl, fun l => ?_⟩
  have hstep : State.step P (s.base.relog l) (.thread i o) = some _ :=
    stepThread_eq_some.mpr ⟨c, x, rest, cyc, e, hi, hcyc,
      (exec_relog P o c cyc _ l x).trans he, rfl⟩
  change (State.step P (s.base.relog l) _).map _ = _
  rw [hstep]
  rfl

/-! ## What a step shows -/

section Shown

variable {P : Params} {o : Oracle} {c : ℕ} {cyc : Cycle} {w : Shared} {x : Instr} {e : Effect}

/-- Only the two sections of the notifications publish anything of a launched cycle. -/
theorem exec_silent (hx : x.isPrelude = false) (hp : ∀ b, x ≠ .emitProgress b)
    (hf : ∀ b, x ≠ .finishIfDone b) (h : exec P o c cyc w x = some e) :
    ∀ sig ∈ e.signals, sig.batch? = none ∧ ∀ rep, sig ≠ .finished rep := by
  cases x
  case emitProgress b => exact absurd rfl (hp b)
  case finishIfDone b => exact absurd rfl (hf b)
  case slotWait k a =>
    simp only [exec, slotWait] at h
    split at h <;> split at h <;> cases h <;> simp [Effect.pass]
  case fanOut todo => obtain rfl := Option.some.inj h; cases todo <;> simp [fanOut, Effect.pass]
  case register | newContext | startLaunch | preSubmitStart | preSubmitRun | preSubmitOk | launch |
      readBlocked | readPrevious | reset | makeTasks | checkFinished | announce | gateReject |
      gateFail | finishForced => cases hx
  all_goals
    obtain rfl := Option.some.inj h
    simp only [enterInflight, toSubmitting, slotHeld, runSubmit, taskSucceeded, taskFailed,
      retryCheck, toRetryWait, markRetried, scheduleRetry, requestRetry, toSubmitFailed,
      markCancelled, taskCrashed, releaseSlot, leaveInflight, note, count, unregister,
      dropContext, onRetryRequested, fire, fired, finalizeRetry, finalizeRetryWrite, vanished]
    repeat' split
    all_goals simp [Effect.pass, Signal.batch?]

theorem emitProgress_signals (b : Bool) (hE : cyc.Emits o) :
    (emitProgress o cyc w b).signals
      = (if b then [.progress cyc.done cyc.total] else []) ++ batch cyc.changedBuffer := by
  obtain ⟨hf, ho⟩ := hE
  rw [emitProgress, if_neg (by simp [hf, ho])]

theorem emitProgress_silent (b : Bool) (hE : ¬cyc.Emits o) :
    (emitProgress o cyc w b).signals = [] := by
  rw [emitProgress, if_pos]
  · rfl
  · rcases hf : cyc.finished with _ | _
    · exact .inr fun ho => hE ⟨hf, ho⟩
    · exact .inl rfl

theorem finishIfDone_silent (b : Bool) (hE : ¬cyc.Ends b) :
    (finishIfDone cyc w b).signals = [] := by
  rw [finishIfDone, if_pos]
  · rfl
  · rcases hf : cyc.finished with _ | _
    · refine .inr ⟨?_, ?_⟩
      · by_contra hd
        exact hE ⟨hf, .inl (by omega)⟩
      · exact fun hb => hE ⟨hf, .inr hb⟩
    · exact .inl rfl

/-- **What a step of a launched cycle shows overtakes no record held back.** -/
theorem exec_inTurn {h : List JobRecord} (hx : x.isPrelude = false)
    (hflush : ∀ b, x = .emitProgress b → cyc.Emits o →
      ∀ r ∈ h, ∀ r' ∈ cyc.changedBuffer, r.jobKey ≠ r'.jobKey)
    (hend : ∀ b, x = .finishIfDone b → cyc.Ends b → h = [])
    (he : exec P o c cyc w x = some e) :
    (∀ k, recordsAt k h = [] ∨ recordsAt k (published e.signals) = []) ∧
      ∀ rep, Signal.finished rep ∈ e.signals → h = [] := by
  by_cases hp : ∃ b, x = .emitProgress b
  case pos =>
    obtain ⟨b, rfl⟩ := hp
    obtain rfl := Option.some.inj he
    by_cases hE : cyc.Emits o
    case pos =>
      rw [emitProgress_signals b hE]
      constructor
      · intro k
        by_cases hk : recordsAt k h = []
        · exact .inl hk
        obtain ⟨r, hr, hrk⟩ : ∃ r ∈ h, r.jobKey = k := by simpa [recordsAt_eq_nil] using hk
        have hpub : published ((if b then [.progress cyc.done cyc.total] else [])
            ++ batch cyc.changedBuffer) = cyc.changedBuffer := by
          rw [published_append, published_batch]
          cases b <;> rfl
        rw [hpub]
        exact .inr (recordsAt_eq_nil.mpr fun r' hr' => hrk ▸ (hflush b rfl hE r hr r' hr').symm)
      · intro rep hrep
        rcases List.mem_append.mp hrep with hrep | hrep
        · cases b <;> simp at hrep
        · exact absurd hrep (finished_not_mem_batch _ rep)
    case neg =>
      rw [emitProgress_silent b hE]
      exact ⟨fun _ => .inr rfl, fun _ hrep => by cases hrep⟩
  case neg =>
    by_cases hf : ∃ b, x = .finishIfDone b
    case pos =>
      obtain ⟨b, rfl⟩ := hf
      by_cases hE : cyc.Ends b
      case pos => exact ⟨fun _ => .inl (by rw [hend b rfl hE]; rfl), fun _ _ => hend b rfl hE⟩
      case neg =>
        obtain rfl := Option.some.inj he
        rw [finishIfDone_silent b hE]
        exact ⟨fun _ => .inr rfl, fun _ hrep => by cases hrep⟩
    case neg =>
      have hsilent := exec_silent hx (fun b hb => hp ⟨b, hb⟩) (fun b hb => hf ⟨b, hb⟩) he
      have hpub : published e.signals = [] := by
        rw [published, List.filterMap_eq_nil_iff.mpr fun sig hsig => (hsilent sig hsig).1]
        rfl
      exact ⟨fun k => .inr (by rw [hpub]; rfl), fun rep hrep =>
        absurd rfl ((hsilent _ hrep).2 rep)⟩

end Shown

/-! ## A run with frames follows one without -/

/-- Once a cycle is announced, nothing is published after its end. -/
theorem sealed_of_reachable {P : Params} {v : Audited} (h : (audited P).Reachable v) {c : ℕ}
    (hr : (ofCycle c v.base.shared.log).filterMap Signal.reset? ≠ []) :
    Sealed (ofCycle c v.base.shared.log) := by
  intro before rep after heq
  obtain ⟨l, hl⟩ := List.exists_mem_of_ne_nil _ hr
  obtain ⟨sig, hsig, hreset⟩ := List.mem_filterMap.mp hl
  obtain rfl : sig = .recordsReset l := by
    cases sig <;> simp_all [Signal.reset?]
  have hlt := (ledgered (audited_base h)).logged _ (mem_ofCycle.mp hsig)
  obtain ⟨cyc, hc⟩ : ∃ cyc, v.base.shared.cycles[c]? = some cyc := ⟨_, List.getElem?_eq_getElem hlt⟩
  obtain ⟨-, before', after', heq', -, hquiet, -, hnone⟩ :=
    (publishedOnce h hc (mem_ofCycle.mp hsig)).finished rep (by rw [heq]; simp)
  have hsplit := split_unique (p := fun sig => ∃ rep', sig = Signal.finished rep')
    (heq.symm.trans heq') ⟨rep, rfl⟩ ⟨rep, rfl⟩ fun y hy hy' => by
      obtain ⟨rep', rfl⟩ := hy'
      exact hnone rep' hy
  rw [hsplit.2.2]
  exact hquiet

/-- The log `l` is that of a run in which every emission is one step and which has done what led to
this state. -/
structure Follows (s : Nested) (l : List (ℕ × Signal)) : Prop where
  delayed : ∀ c, Delayed (ofCycle c l) (ofCycle c s.sys.base.shared.log) (s.held c)
  apart : ∀ c, (s.openOf c).Pairwise fun f g =>
    ∀ r ∈ f.batch, ∀ r' ∈ g.batch, r.jobKey ≠ r'.jobKey

namespace Nested

variable {P : Params} {s s' : Nested} {l : List (ℕ × Signal)}

/-- What the two runs have in common tells the phase of a cycle. -/
theorem phase (hv : (audited P).Reachable (s.sys.relog l)) {c : ℕ} {cyc : Cycle}
    (hc : s.sys.base.shared.cycles[c]? = some cyc) :
    ((ofCycle c l).filterMap Signal.reset? = [] ∧ cyc.changedBuffer = []) ∨
      ((ofCycle c l).filterMap Signal.reset? ≠ [] ∧
        ∀ t ∈ s.sys.base.threads, t.cycle = c → ∀ y ∈ t.code, y.isPrelude = false) := by
  rcases ((audit hv).cycles c cyc hc).phase with ⟨hnone, U⟩ | ⟨reset, hreset, A⟩
  · exact .inl ⟨hnone, U.buffer⟩
  · refine .inr ⟨?_, ?_⟩
    · rw [show ofCycle c l = ofCycle c (s.sys.relog l).base.shared.log from rfl, hreset]
      simp
    · rintro ⟨d, code⟩ ht rfl y hy
      exact A.launched code (mem_codesOf.mpr ht) y hy

/-- A step of the system, by a thread or not. -/
theorem base_follows (hv : (audited P).Reachable (s.sys.relog l)) (F : Follows s l) {a : Act}
    {p : Place} (hturn : s.InTurn (.run a)) (h : s.base P a p = some s') :
    ∃ l', (audited P).Reachable (s'.sys.relog l') ∧ Follows s' l' := by
  obtain ⟨b, hb, rfl⟩ := Option.map_eq_some_iff.mp h
  by_cases ha : a.ran = none
  case pos =>
    obtain ⟨hlog, hstep⟩ := audited_other ha hb l
    refine ⟨l, .step hv trivial hstep, fun c => ?_, F.apart⟩
    rw [hlog]
    exact F.delayed c
  case neg =>
    obtain ⟨i, o, rfl⟩ : ∃ i o, a = .thread i o := by cases a <;> simp_all [Act.ran]
    obtain ⟨c, x, rest, cyc, e, hi, hcyc, he, hlog, hstep⟩ := audited_thread hb
    have hv' := System.ReachableUnder.step hv trivial (hstep l)
    refine ⟨_, hv', fun c' => ?_, F.apart⟩
    have hsealed :
      (ofCycle c' (l ++ e.signals.map fun sig => (c, sig))).filterMap Signal.reset? ≠ [] →
        Sealed (ofCycle c' (l ++ e.signals.map fun sig => (c, sig))) := sealed_of_reachable hv'
    simp only [hlog, ofCycle_append] at hsealed ⊢
    by_cases hc' : c' = c
    case neg =>
      rw [ofCycle_other hc', List.append_nil, List.append_nil]
      exact F.delayed c'
    case pos =>
      subst hc'
      rw [ofCycle_own] at hsealed ⊢
      have hshown : (∀ k, recordsAt k (s.held c') = [] ∨ recordsAt k (published e.signals) = []) ∧
          ∀ rep, Signal.finished rep ∈ e.signals → s.held c' = [] := by
        rcases phase hv hcyc with ⟨hnone, -⟩ | ⟨-, hlaunched⟩
        · have hheld := ((F.delayed c').early hnone).2
          exact ⟨fun _ => .inl (by rw [hheld]; rfl), fun _ _ => hheld⟩
        · refine exec_inTurn (hlaunched _ (List.mem_of_getElem? hi) rfl x List.mem_cons_self)
            ?_ ?_ he
          · rintro b rfl hE
            simp only [InTurn, hi] at hturn
            exact hturn cyc hcyc hE
          · rintro b rfl hE
            simp only [InTurn, hi] at hturn
            exact hturn cyc hcyc hE
      exact (F.delayed c').append hsealed hshown.1 hshown.2

theorem emit_eq_some {i : ℕ} {o : Oracle} (h : s.emit i o = some s') : ∃ c rest cyc fr,
    s.sys.base.threads[i]? = some ⟨c, .emitProgress true :: rest⟩ ∧
    s.sys.base.shared.cycles[c]? = some cyc ∧ cyc.Emits o ∧
    s'.sys = { s.sys with base := { s.sys.base with
      shared := s.sys.base.shared.apply c { Effect.pass cyc s.sys.base.shared with
        cyc := { cyc with changedBuffer := [] }
        signals := [.progress cyc.done cyc.total] }
      threads := replaceAt s.sys.base.threads i [⟨c, rest⟩] } } ∧
    s'.frames = s.frames ++ [fr] ∧ fr.cycle = c ∧ fr.batch = cyc.changedBuffer ∧
    fr.returned = false := by
  rw [emit] at h
  split at h
  case h_2 => cases h
  case h_1 c rest hi =>
    split at h
    case h_2 => cases h
    case h_1 cyc hc =>
      split at h
      case isFalse => cases h
      case isTrue hE =>
        obtain rfl := Option.some.inj h
        exact ⟨c, rest, cyc, _, hi, hc, hE, rfl, rfl, rfl, rfl, rfl⟩

theorem openOf_append {fr : Frame} (hframes : s'.frames = s.frames ++ [fr])
    (hret : fr.returned = false) (c : ℕ) :
    s'.openOf c = s.openOf c ++ if fr.cycle = c then [fr] else [] := by
  rw [openOf, openOf, hframes, List.filter_append]
  split
  case isTrue hc => simp [hc, hret]
  case isFalse hc => simp [hc]

/-- An emission with slots is the emission of the other run, its batch held back. -/
theorem emit_follows (hv : (audited P).Reachable (s.sys.relog l)) (F : Follows s l) {i : ℕ}
    {o : Oracle} (hturn : s.InTurn (.emit i o)) (h : s.emit i o = some s') :
    ∃ l', (audited P).Reachable (s'.sys.relog l') ∧ Follows s' l' := by
  obtain ⟨c, rest, cyc, fr, hi, hcyc, hE, hsys, hframes, rfl, hbatch, hret⟩ := emit_eq_some h
  have hopen := openOf_append hframes hret
  have hshow : ∀ w, emitProgress o cyc w true = { Effect.pass cyc w with
      cyc := { cyc with changedBuffer := [] }
      signals := .progress cyc.done cyc.total :: batch cyc.changedBuffer } := by
    intro w
    obtain ⟨hf, ho⟩ := hE
    rw [emitProgress, if_neg (by simp [hf, ho])]
    rfl
  let n := (Signal.progress cyc.done cyc.total :: batch cyc.changedBuffer).map fun sig =>
    (fr.cycle, sig)
  have hstep : (audited P).step (s.sys.relog l) (.thread i o) = some (s'.sys.relog (l ++ n)) := by
    have hthread : State.step P (s.sys.base.relog l) (.thread i o) = some _ :=
      stepThread_eq_some.mpr ⟨fr.cycle, .emitProgress true, rest, cyc, _, hi, hcyc,
        congrArg some (hshow _), rfl⟩
    have hret : ∀ w w', returnedBy P w w' (s.sys.relog l).base.threads (some i) = [] := by
      intro w w'
      rw [show (s.sys.relog l).base.threads = s.sys.base.threads from rfl]
      simp [returnedBy, hi, Instr.returned, Instr.publishedKey?]
    change (State.step P (s.sys.base.relog l) (.thread i o)).map _ = _
    rw [hthread, hsys]
    simp only [Option.map_some, Act.ran, hret, List.append_nil]
    rfl
  have hv' := System.ReachableUnder.step hv trivial hstep
  refine ⟨l ++ n, hv', fun c' => ?_, fun c' => ?_⟩
  · have hsealed : (ofCycle c' (l ++ n)).filterMap Signal.reset? ≠ [] →
        Sealed (ofCycle c' (l ++ n)) := sealed_of_reachable hv'
    have hlog : s'.sys.base.shared.log
        = s.sys.base.shared.log ++ [Signal.progress cyc.done cyc.total].map fun sig =>
          (fr.cycle, sig) := by
      rw [hsys]
      rfl
    rw [hlog, held, hopen]
    simp only [ofCycle_append, n] at hsealed ⊢
    by_cases hc' : c' = fr.cycle
    case neg =>
      rw [ofCycle_other hc', ofCycle_other hc', if_neg (Ne.symm hc'), List.append_nil,
        List.append_nil, List.append_nil]
      exact F.delayed c'
    case pos =>
      subst hc'
      rw [ofCycle_own] at hsealed ⊢
      rw [ofCycle_own, if_pos rfl, List.flatMap_append, List.flatMap_singleton, hbatch]
      refine (F.delayed _).emit (fun hr => hsealed ?_) fun hr => ?_
      · rw [List.filterMap_append]
        exact List.append_ne_nil_of_left_ne_nil hr _
      · exact ((phase hv hcyc).resolve_right fun hlaunched => hlaunched.1 hr).2
  · rw [hopen]
    split
    case isFalse => simpa using F.apart c'
    case isTrue hc' =>
      subst hc'
      refine List.pairwise_append.mpr ⟨F.apart _, List.pairwise_singleton _ _,
        fun g hg g' hg' => ?_⟩
      obtain rfl := List.mem_singleton.mp hg'
      simp only [InTurn, hi] at hturn
      intro r hr r' hr'
      exact hturn cyc hcyc hE r (List.mem_flatMap.mpr ⟨g, hg, hr⟩) r' (hbatch ▸ hr')

/-- The frames of each cycle before and after the slots of one have returned. -/
theorem openOf_slotsReturn {f : ℕ} {fr : Frame} (hfr : s.frames[f]? = some fr)
    (hret : fr.returned = false) (h : s.slotsReturn f = some s') :
    (∃ pre post, s.openOf fr.cycle = pre ++ fr :: post ∧ s'.openOf fr.cycle = pre ++ post) ∧
      ∀ c, c ≠ fr.cycle → s'.openOf c = s.openOf c := by
  have hold : s.frames = s.frames.take f ++ fr :: s.frames.drop (f + 1) := eq_take_cons_drop hfr
  have hframes : s'.frames
      = s.frames.take f ++ [{ fr with returned := true }] ++ s.frames.drop (f + 1) := by
    obtain ⟨fr', hfr', rfl⟩ := Option.map_eq_some_iff.mp h
    obtain rfl := Option.some.inj (hfr.symm.trans hfr')
    exact set_eq_replaceAt hfr
  let p : Frame → Bool := fun g => g.cycle = fr.cycle ∧ g.returned = false
  refine ⟨⟨(s.frames.take f).filter p, (s.frames.drop (f + 1)).filter p, ?_, ?_⟩, fun c hc => ?_⟩
  · conv_lhs => rw [openOf, hold]
    simp [p, hret]
  · rw [openOf, hframes]
    simp [p]
  · rw [openOf, openOf, hframes]
    conv_rhs => rw [hold]
    simp [Ne.symm hc]

/-- When the slots return, the batch is published, which the other run had published before. -/
theorem slotsReturn_follows (F : Follows s l) {f : ℕ} (hrun : s.running f = true)
    (h : s.slotsReturn f = some s') : s'.sys.relog l = s.sys.relog l ∧ Follows s' l := by
  obtain ⟨fr, hfr, hs⟩ := Option.map_eq_some_iff.mp h
  have hret : fr.returned = false := by simpa [running, hfr] using hrun
  obtain ⟨⟨pre, post, hpre, hpost⟩, hother⟩ := openOf_slotsReturn hfr hret h
  subst hs
  refine ⟨rfl, fun c => ?_, fun c => ?_⟩
  · rw [ofCycle_append]
    by_cases hc : c = fr.cycle
    case neg =>
      rw [ofCycle_other hc, List.append_nil, held, hother c hc]
      exact F.delayed c
    case pos =>
      subst hc
      have D := F.delayed fr.cycle
      rw [held, hpre, List.flatMap_append, List.flatMap_cons, ← List.append_assoc] at D
      rw [ofCycle_own, held, hpost, List.flatMap_append]
      refine D.release fun k => ?_
      by_cases hk : recordsAt k fr.batch = []
      · exact .inl hk
      -- the other frames hold no record of this key
      obtain ⟨r, hr, rfl⟩ : ∃ r ∈ fr.batch, r.jobKey = k := by simpa [recordsAt_eq_nil] using hk
      have hapart := F.apart fr.cycle
      rw [hpre, List.pairwise_append, List.pairwise_cons] at hapart
      refine .inr (recordsAt_eq_nil.mpr fun r' hr' => ?_)
      rcases List.mem_append.mp hr' with hr' | hr'
      · obtain ⟨g, hg, hr'⟩ := List.mem_flatMap.mp hr'
        exact hapart.2.2 g hg fr List.mem_cons_self r' hr' r hr
      · obtain ⟨g, hg, hr'⟩ := List.mem_flatMap.mp hr'
        exact (hapart.2.1.1 g hg r hr r' hr').symm
  · by_cases hc : c = fr.cycle
    case neg =>
      rw [hother c hc]
      exact F.apart c
    case pos =>
      subst hc
      have hapart := F.apart fr.cycle
      rw [hpre] at hapart
      rw [hpost]
      exact hapart.sublist ((List.sublist_cons_self fr post).append_left pre)

end Nested

/-- **A run whose slots let nothing overtake follows a run in which every emission is one step.** -/
theorem follows_of_reachable {P : Params} {s : Nested}
    (h : (nested P).ReachableUnder Nested.InTurn s) :
    ∃ l, (audited P).Reachable (s.sys.relog l) ∧ Follows s l := by
  refine h.invariant (I := fun s => ∃ l, (audited P).Reachable (s.sys.relog l) ∧ Follows s l)
    (fun s hs => ?_) fun s call s' _ ih hturn hs => ?_
  · refine ⟨s.sys.base.shared.log, .init hs.1, fun c => ?_, fun c => ?_⟩
    · have hlog : s.sys.base.shared.log = [] := hs.1.1.1.log
      have hheld : s.held c = [] := by simp [Nested.held, Nested.openOf, hs.2.2]
      rw [hlog, hheld]
      exact .nil
    · simp [Nested.openOf, hs.2.2]
  · obtain ⟨l, hv, F⟩ := ih
    cases call with
    | run a =>
      simp only [nested, Nested.step, Option.ite_none_right_eq_some] at hs
      exact Nested.base_follows hv F hturn hs.2
    | slot f a =>
      simp only [nested, Nested.step, Option.ite_none_right_eq_some] at hs
      obtain ⟨⟨-, ha, -⟩, hs⟩ := hs
      refine Nested.base_follows hv F ?_ hs
      cases a with
      | thread i o => cases ha
      | _ => trivial
    | emit i o =>
      simp only [nested, Nested.step, Option.ite_none_right_eq_some] at hs
      exact Nested.emit_follows hv F hturn hs.2
    | slotsReturn f =>
      simp only [nested, Nested.step, Option.ite_none_right_eq_some, Nested.idle,
        Bool.and_eq_true] at hs
      obtain ⟨hlog, F'⟩ := Nested.slotsReturn_follows F hs.1.1 hs.2
      exact ⟨l, by rwa [hlog], F'⟩

/-! ## Two jobs -/

def secondRecord : JobRecord where
  jobsetId := "js"
  jobKey := "b"
  command := "submit b"
  generation := 1

/-- One jobset with two jobs that were never submitted. -/
def twoJobs : State where
  shared :=
    { store :=
        { jobsets := Dict.empty.set "js" { jobsetId := "js", intendedCount := 2 }
          jobs := Dict.empty.set "js" ((Dict.empty.set "a" oneJobRecord).set "b" secondRecord)
          counts := Dict.empty.set "js" (Dict.empty.set .created 2) }
      nextGen := 2 }

theorem twoJobs_init : (system oneJobParams).init twoJobs := by
  have hjob : ∀ js k r, twoJobs.shared.store.job? js k = some r →
      js = "js" ∧ (k = "b" ∧ r = secondRecord ∨ k = "a" ∧ r = oneJobRecord) := by
    intro js k r h
    simp only [twoJobs, InMemoryStore.job?, Dict.get?_set] at h
    split at h
    case isTrue hjs =>
      rw [Option.bind_some, Dict.get?_set, Dict.get?_set] at h
      split at h
      case isTrue hk => exact ⟨hjs, .inl ⟨hk, (Option.some.inj h).symm⟩⟩
      case isFalse =>
        split at h
        case isTrue hk => exact ⟨hjs, .inr ⟨hk, (Option.some.inj h).symm⟩⟩
        case isFalse => cases h
    case isFalse => cases h
  refine ⟨⟨rfl, rfl, rfl, rfl, ⟨fun js => ?_, fun js k r h => ?_⟩, fun k r h => ?_⟩, rfl, rfl⟩
  · simp only [twoJobs, Dict.mem_keys_set]
    rfl
  · obtain ⟨rfl, ⟨rfl, rfl⟩ | ⟨rfl, rfl⟩⟩ := hjob js k r h <;> exact ⟨rfl, rfl⟩
  · obtain ⟨-, ⟨-, rfl⟩ | ⟨-, rfl⟩⟩ := hjob _ k r h <;> decide

theorem nested_twoJobs_init : (nested oneJobParams).init { sys := { base := twoJobs } } :=
  ⟨⟨twoJobs_init, rfl⟩, rfl, rfl⟩

/-- The two jobs are submitted, and each wrapper is about to run: `a` at index 2, `b` at index 1. -/
def twoJobsRunning : List Call :=
  ([[.submit none 1 2 false], threadSteps 0 14, threadSteps 2 4, threadSteps 1 4].flatten).map .run

/-- The first attempt of the thread at this index fails, and its wait for the retry is published. -/
def attemptFails (i : ℕ) : List Act :=
  [submitResult i (.submitError { failReason := "BSUB_EXIT_1" }), threadSteps i 5,
    [.thread i { emit := true }], threadSteps i 2].flatten

/-- Both retries are waiting; a kill of `a` gives its retry up, and a slot of that progress calls
`cancel_submit`, which gives up that of `b`: the cycle is finished before the slot returns. -/
def twoJobsOvertaken : List Call :=
  [twoJobsRunning, (attemptFails 2).map .run, (attemptFails 1).map .run,
    ([Act.newKill (some {"a"})] ++ killSteps 0 3 ++ threadSteps 5 3).map .run,
    [.emit 5 { emit := true }, .slot 0 .cancelSubmit, .slot 0 (.abortRetries 0 .aborted)],
    (threadSteps 6 7).map .run, [.slotsReturn 0]].flatten

/-- `a` is submitted, and a slot of that progress calls `cancel_submit` while the wrapper of `b` is
running: no retry is waiting, and `b` is published after the slot has returned. -/
def twoJobsInTurn : List Call :=
  [twoJobsRunning, (submitResult 2 (.jobId 7) ++ threadSteps 2 2).map .run,
    [.emit 2 { emit := true }, .slot 0 .cancelSubmit, .slot 0 (.abortRetries 0 .aborted),
      .slotsReturn 0],
    (threadSteps 2 3 ++ submitResult 1 (.jobId 8) ++ threadSteps 1 4).map .run].flatten

/-! ## Published once, unless a slot overtakes -/

/-- What is shown late is shown once, in order and before the end. -/
theorem PublishedOnce.of_delayed {cyc : Cycle} {reset : List JobRecord} {v sigs : List Signal}
    {h written : List JobRecord} (O : PublishedOnce cyc reset v written) (D : Delayed v sigs h)
    (hr : v.filterMap Signal.reset? ≠ []) : PublishedOnce cyc reset sigs written := by
  have hprog : progressOf sigs = progressOf v := by
    have := congrArg progressOf D.others
    simpa only [progressOf, filterMap_others (f := Signal.progress?) fun _ => rfl] using this
  refine ⟨fun k => ?_, hprog ▸ O.monotone, hprog ▸ O.bounded, fun rep hrep => ?_⟩
  · refine .trans ?_ (O.ordered k)
    rw [D.records k, recordsAt_append]
    exact List.prefix_append _ _
  · obtain ⟨hall, before', after', hv, hlast, -, hquiet, hnone⟩ :=
      O.finished rep ((D.finished_iff rep).mp hrep)
    obtain ⟨before, after, rfl⟩ := List.append_of_mem hrep
    obtain ⟨hbatch, rfl⟩ := D.ended hr _ _ _ rfl
    have hothers := D.others
    rw [hv, List.filter_append, List.filter_append, List.filter_cons_of_pos rfl,
      List.filter_cons_of_pos rfl] at hothers
    obtain ⟨hbefore, -, hafter⟩ := split_unique (p := fun sig => ∃ rep', sig = Signal.finished rep')
      hothers ⟨rep, rfl⟩ ⟨rep, rfl⟩ fun y hy hy' => by
        obtain ⟨rep', rfl⟩ := hy'
        rw [← List.filter_append] at hy
        exact hnone rep' (List.mem_filter.mp hy).1
    have hprogOf : ∀ l l' : List Signal, l.filter (fun sig => sig.batch?.isNone)
        = l'.filter (fun sig => sig.batch?.isNone) → progressOf l = progressOf l' := by
      intro l l' heq
      have := congrArg progressOf heq
      simpa only [progressOf, filterMap_others (f := Signal.progress?) fun _ => rfl] using this
    refine ⟨fun k => ?_, before, after, rfl, ?_, hbatch, ?_, fun rep' hmem => ?_⟩
    · rw [← hall k, D.records k, List.append_nil]
    · rw [hprogOf _ _ hbefore]
      exact hlast
    · rw [hprogOf _ _ hafter]
      exact hquiet
    · refine hnone rep' ?_
      have hmem' : Signal.finished rep' ∈ (before ++ after).filter fun sig => sig.batch?.isNone :=
        List.mem_filter.mpr ⟨hmem, rfl⟩
      rw [List.filter_append, hbefore, hafter, ← List.filter_append] at hmem'
      exact (List.mem_filter.mp hmem').1

/-- **Every transition of a launched submission is published once, in order, and before the end, as
long as the slots of a progress let nothing overtake what is held back.** -/
theorem publishedOnce_inTurn {P : Params} {s : Nested}
    (h : (nested P).ReachableUnder Nested.InTurn s) {c : ℕ} {cyc : Cycle}
    (hc : s.sys.base.shared.cycles[c]? = some cyc) {reset : List JobRecord}
    (hreset : (c, Signal.recordsReset reset) ∈ s.sys.base.shared.log) :
    PublishedOnce cyc reset (ofCycle c s.sys.base.shared.log) (ofCycle c s.sys.written) := by
  obtain ⟨l, hv, F⟩ := follows_of_reachable h
  have D := F.delayed c
  have hmem : Signal.recordsReset reset ∈ ofCycle c l := by
    have hothers : Signal.recordsReset reset ∈ (ofCycle c s.sys.base.shared.log).filter
        fun sig => sig.batch?.isNone := List.mem_filter.mpr ⟨mem_ofCycle.mpr hreset, rfl⟩
    rw [D.others] at hothers
    exact (List.mem_filter.mp hothers).1
  have O : PublishedOnce cyc reset (ofCycle c l) (ofCycle c s.sys.written) :=
    publishedOnce hv hc (mem_ofCycle.mp hmem)
  refine O.of_delayed D fun hnone => ?_
  have := List.filterMap_eq_nil_iff.mp hnone _ hmem
  cases this

/-- Both jobs are published before the end, a slot having called `cancel_submit` in between. -/
theorem publishedOnce_twoJobs : ∃ s cyc reset,
    (nested oneJobParams).runUnder (fun s call => decide (s.InTurn call))
        { sys := { base := twoJobs } } twoJobsInTurn = some s ∧
      s.sys.base.shared.cycles[0]? = some cyc ∧ cyc.finished = true ∧
      (ofCycle 0 s.sys.written).map (fun r => (r.jobKey, r.state)) = [("a", .pend), ("b", .pend)] ∧
      PublishedOnce cyc reset (ofCycle 0 s.sys.base.shared.log) (ofCycle 0 s.sys.written) := by
  have hrun : ((nested oneJobParams).runUnder (fun s call => decide (s.InTurn call))
      { sys := { base := twoJobs } } twoJobsInTurn).bind (fun s =>
        (s.sys.base.shared.cycles[0]?).bind fun cyc =>
          ((ofCycle 0 s.sys.base.shared.log).filterMap Signal.reset?).head?.bind fun reset =>
            if cyc.finished = true ∧ (ofCycle 0 s.sys.written).map (fun r => (r.jobKey, r.state))
                = [("a", .pend), ("b", .pend)] then some () else none) = some () := by
    decide +kernel
  obtain ⟨s, hs, hrest⟩ := Option.bind_eq_some_iff.mp hrun
  obtain ⟨cyc, hcyc, hrest⟩ := Option.bind_eq_some_iff.mp hrest
  obtain ⟨reset, hreset, hrest⟩ := Option.bind_eq_some_iff.mp hrest
  obtain ⟨hfin, hwritten⟩ := (Option.ite_none_right_eq_some.mp hrest).1
  have hmem : Signal.recordsReset reset ∈ ofCycle 0 s.sys.base.shared.log := by
    obtain ⟨sig, hsig, heq⟩ := List.mem_filterMap.mp (List.mem_of_mem_head? hreset)
    cases sig <;> simp_all [Signal.reset?]
  have hr := System.reachableUnder_of_runUnder (C := Nested.InTurn) (fun _ _ => of_decide_eq_true)
    (.init nested_twoJobs_init) hs
  exact ⟨s, cyc, reset, hs, hcyc, hfin, hwritten,
    publishedOnce_inTurn hr hcyc (mem_ofCycle.mp hmem)⟩

/-- **A slot that calls back can finish the cycle before its last batch.** -/
theorem overtaken_twoJobs : ∃ s cyc reset, (nested oneJobParams).Reachable s ∧
    s.sys.base.shared.cycles[0]? = some cyc ∧
    (0, Signal.recordsReset reset) ∈ s.sys.base.shared.log ∧
    ¬PublishedOnce cyc reset (ofCycle 0 s.sys.base.shared.log) (ofCycle 0 s.sys.written) := by
  have hrun : ((nested oneJobParams).run { sys := { base := twoJobs } } twoJobsOvertaken).bind
      (fun s => (s.sys.base.shared.cycles[0]?).bind fun cyc =>
        let sigs := ofCycle 0 s.sys.base.shared.log
        (sigs.filterMap Signal.reset?).head?.bind fun reset =>
          (sigs.filterMap Signal.report?).head?.bind fun rep =>
            (sigs.getLast?.bind Signal.batch?).map fun _ => ()) = some () := by decide +kernel
  obtain ⟨s, hs, hrest⟩ := Option.bind_eq_some_iff.mp hrun
  obtain ⟨cyc, hcyc, hrest⟩ := Option.bind_eq_some_iff.mp hrest
  obtain ⟨reset, hreset, hrest⟩ := Option.bind_eq_some_iff.mp hrest
  obtain ⟨rep, hrep, hrest⟩ := Option.bind_eq_some_iff.mp hrest
  obtain ⟨b, hb, -⟩ := Option.map_eq_some_iff.mp hrest
  obtain ⟨last, hlast, hb⟩ := Option.bind_eq_some_iff.mp hb
  have hmem : Signal.recordsReset reset ∈ ofCycle 0 s.sys.base.shared.log := by
    obtain ⟨sig, hsig, heq⟩ := List.mem_filterMap.mp (List.mem_of_mem_head? hreset)
    cases sig <;> simp_all [Signal.reset?]
  have hfin : Signal.finished rep ∈ ofCycle 0 s.sys.base.shared.log := by
    obtain ⟨sig, hsig, heq⟩ := List.mem_filterMap.mp (List.mem_of_mem_head? hrep)
    cases sig <;> simp_all [Signal.report?]
  refine ⟨s, cyc, reset, System.reachable_of_run (.init nested_twoJobs_init) hs, hcyc,
    mem_ofCycle.mp hmem, fun O => ?_⟩
  obtain ⟨-, before, after, hsigs, -, hquiet, -⟩ := O.finished rep hfin
  rw [hsigs, List.getLast?_append, List.getLast?_cons] at hlast
  cases hafter : after.getLast? with
  | none =>
    rw [hafter] at hlast
    obtain rfl : Signal.finished rep = last := by simpa using hlast
    cases hb
  | some sig =>
    rw [hafter] at hlast
    obtain rfl : sig = last := by simpa using hlast
    exact absurd (List.filterMap_eq_nil_iff.mp hquiet _ (List.mem_of_getLast? hafter))
      (by simp [hb])

end Lsfmgr.Submit
