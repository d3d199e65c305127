import Mathlib
import Lsfmgr.Pacer.Order

/-!
# Pacer/Prune — what is displayed with `_prune` and without it

Above the threshold `_prune` forgets the displayed states that have stayed for the dwell.  A record
of the same state then counts as a new one and starts the dwell again, and a change that comes
before it has passed has to wait; without `_prune` it would not.  In all other runs the two pacers
emit the same.
-/

namespace Lsfmgr.Pacer

open Machinery

/-- A pacer that prunes behind one that does not: the same queue, and lanes that have forgotten. -/
structure Follows (clock : ℚ) (p p₀ : StatePacer) : Prop where
  queue : p.queue = p₀.queue
  dwell : p.dwell = p₀.dwell
  lane : ∀ key, Lane.Behind p.wait clock (p.lane key) (p₀.lane key)

namespace Follows

variable {clock now : ℚ} {p p₀ : StatePacer}

theorem wait_eq (h : Follows clock p p₀) : p.wait = p₀.wait := by
  rw [StatePacer.wait, StatePacer.wait, h.dwell]

theorem mono {clock' : ℚ} (h : Follows clock p p₀) (hc : clock ≤ clock') : Follows clock' p p₀ :=
  ⟨h.queue, h.dwell, fun key => (h.lane key).mono hc⟩

theorem pushRecord {jobsetId : String} {r : JobRecord} {records : List JobRecord}
    (h : Follows now p p₀) (due : List JobRecord)
    (hu : ∀ key, Lane.Unhurried JobRecord.state p.wait now (p.lane key) (p₀.lane key)
      (recordsOf key jobsetId (r :: records))) :
    (p.pushRecord now jobsetId due r).2 = (p₀.pushRecord now jobsetId due r).2 ∧
      Follows now (p.pushRecord now jobsetId due r).1 (p₀.pushRecord now jobsetId due r).1 ∧
      ∀ key, Lane.Unhurried JobRecord.state p.wait now
        ((p.pushRecord now jobsetId due r).1.lane key)
        ((p₀.pushRecord now jobsetId due r).1.lane key) (recordsOf key jobsetId records) := by
  have ho := p.pushRecord_offered now jobsetId due r
  have ho₀ := p₀.pushRecord_offered now jobsetId due r
  have hown := hu (jobsetId, r.jobKey)
  rw [recordsOf_cons, recordsOf_singleton_self] at hown
  obtain ⟨hdue, hlane, hrest⟩ := (h.lane (jobsetId, r.jobKey)).offer hown
  have hwait : (p.pushRecord now jobsetId due r).1.wait = p.wait := by
    rw [StatePacer.wait, ho.dwell, StatePacer.wait]
  refine ⟨?_, ⟨?_, ?_, fun key => ?_⟩, fun key => ?_⟩
  · rw [ho.due, ho₀.due, ← h.wait_eq, hdue]
  · rw [ho.queue, ho₀.queue, ← h.wait_eq, hdue, h.queue, Lane.waiting, Lane.waiting, hlane.1]
  · rw [ho.dwell, ho₀.dwell, h.dwell]
  · rw [hwait]
    by_cases hk : key = (jobsetId, r.jobKey)
    · subst hk
      rw [ho.lane_self, ho₀.lane_self, ← h.wait_eq]
      exact hlane
    · rw [ho.lane_other key hk, ho₀.lane_other key hk]
      exact h.lane key
  · by_cases hk : key = (jobsetId, r.jobKey)
    · subst hk
      rw [ho.lane_self, ho₀.lane_self, ← h.wait_eq]
      exact hrest
    · have hother := hu key
      rw [recordsOf_cons, recordsOf_singleton_of_ne (Ne.symm hk)] at hother
      rw [ho.lane_other key hk, ho₀.lane_other key hk]
      exact hother

theorem pushRecords {jobsetId : String} : ∀ {records : List JobRecord} {p p₀ : StatePacer}
    (due : List JobRecord), Follows now p p₀ →
    (∀ key, Lane.Unhurried JobRecord.state p.wait now (p.lane key) (p₀.lane key)
      (recordsOf key jobsetId records)) →
    (p.pushRecords now jobsetId due records).2 = (p₀.pushRecords now jobsetId due records).2 ∧
      Follows now (p.pushRecords now jobsetId due records).1
        (p₀.pushRecords now jobsetId due records).1
  | [], _, _, _, h, _ => ⟨rfl, h⟩
  | r :: records, p, p₀, due, h, hu => by
      obtain ⟨hdue, hf, hrest⟩ := h.pushRecord due hu
      have hwait : (p.pushRecord now jobsetId due r).1.wait = p.wait := by
        rw [StatePacer.wait, (p.pushRecord_offered now jobsetId due r).dwell, StatePacer.wait]
      rw [StatePacer.pushRecords_cons, StatePacer.pushRecords_cons, ← hdue]
      exact hf.pushRecords _ (hwait ▸ hrest)

theorem drainKey (h : Follows clock p p₀) (flush : Bool) (now : ℚ)
    (records : List JobRecord) (key : Key) :
    (p.drainKey flush now records key).2 = (p₀.drainKey flush now records key).2 ∧
      Follows clock (p.drainKey flush now records key).1 (p₀.drainKey flush now records key).1 := by
  have ht := p.drainKey_turned now flush records key
  have ht₀ := p₀.drainKey_turned now flush records key
  have hboth : Lane.turn JobRecord.state p.wait now flush (p.lane key) =
        Lane.turn JobRecord.state p₀.wait now flush (p₀.lane key) ∨
      Lane.turn JobRecord.state p.wait now flush (p.lane key) = (p.lane key, none) ∧
        Lane.turn JobRecord.state p₀.wait now flush (p₀.lane key) = (p₀.lane key, none) := by
    by_cases hq : (p.lane key).queue = none
    · have hq₀ := (h.lane key).1 ▸ hq
      exact .inr ⟨Lane.turn_of_queue_eq_none hq, Lane.turn_of_queue_eq_none hq₀⟩
    · exact .inl (by rw [(h.lane key).of_queued hq, h.wait_eq])
  have hwait : (p.drainKey flush now records key).1.wait = p.wait := by
    rw [StatePacer.wait, ht.dwell, StatePacer.wait]
  refine ⟨?_, ?_, by rw [ht.dwell, ht₀.dwell, h.dwell], fun k => ?_⟩
  · rw [ht.records, ht₀.records]
    obtain he | ⟨he, he₀⟩ := hboth
    · rw [he]
    · rw [he, he₀]
  · rw [ht.queue, ht₀.queue]
    obtain he | ⟨he, he₀⟩ := hboth
    · rw [he, h.queue]
    · rw [he, he₀, h.queue]
      rfl
  · rw [hwait]
    by_cases hk : k = key
    · subst hk
      rw [ht.lane_self, ht₀.lane_self]
      obtain he | ⟨he, he₀⟩ := hboth
      · rw [he]
        exact .refl clock _
      · rw [he, he₀]
        exact h.lane k
    · rw [ht.lane_other k hk, ht₀.lane_other k hk]
      exact h.lane k

theorem drainKeys (flush : Bool) (now : ℚ) : ∀ (keys : List Key) {p p₀ : StatePacer}
    (records : List JobRecord), Follows clock p p₀ →
    (p.drainKeys flush now records keys).2 = (p₀.drainKeys flush now records keys).2 ∧
      Follows clock (p.drainKeys flush now records keys).1 (p₀.drainKeys flush now records keys).1
  | [], _, _, _, h => ⟨rfl, h⟩
  | key :: keys, p, p₀, records, h => by
      obtain ⟨hrec, hf⟩ := h.drainKey flush now records key
      rw [StatePacer.drainKeys_cons, StatePacer.drainKeys_cons, ← hrec]
      exact hf.drainKeys flush now keys _

theorem batches_eq (h : Follows clock p p₀) : p.batches = p₀.batches := by
  rw [StatePacer.batches, StatePacer.batches, h.queue]

theorem forget (h : Follows clock p p₀) (jobsetId : String) (jobKeys : Option (List String)) :
    Follows clock (p.forget jobsetId jobKeys) (p₀.forget jobsetId jobKeys) := by
  refine ⟨?_, h.dwell, fun key => ?_⟩
  · refine Dict.ext_entries ?_
    rw [StatePacer.entries_queue_forget, StatePacer.entries_queue_forget, h.queue]
  · rw [StatePacer.lane_forget, StatePacer.lane_forget]
    split
    · exact .refl clock _
    · exact h.lane key

theorem prune (h : Follows clock p p₀) (limit : ℕ) (hc : now ≤ clock)
    (hle : ∀ key state since, (p.lane key).shown = some (state, since) → since ≤ clock) :
    Follows clock (p.prune limit now) p₀ := by
  have hwait : (p.prune limit now).wait = p.wait := by
    rw [StatePacer.prune]
    split <;> rfl
  refine ⟨?_, ?_, fun key => ?_⟩
  · rw [← h.queue, StatePacer.prune]
    split <;> rfl
  · rw [← h.dwell, StatePacer.prune]
    split <;> rfl
  · rw [hwait]
    obtain he | he := p.lane_prune now limit key
    · exact he ▸ h.lane key
    · refine he ▸ (h.lane key).hide hc ?_ (hle key)
      rw [StatePacer.wait, dueToleranceS]
      linarith

/-- `stop` begins. -/
theorem stop (h : Follows clock p p₀) :
    Follows clock { p with dwell := 0 } { p₀ with dwell := 0 } := by
  refine ⟨h.queue, rfl, fun key => (h.lane key).of_le ?_⟩
  norm_num [StatePacer.wait, dueToleranceS]

/-- `stop` ends. -/
theorem clear (h : Follows clock p p₀) :
    Follows clock { p with shown := ∅ } { p₀ with shown := ∅ } :=
  ⟨h.queue, h.dwell, fun key => ⟨(h.lane key).1, .inl rfl⟩⟩

end Follows

/-! ## Two runs -/

/-- A pacer that does not prune. -/
def unpruned (p : StatePacer) (_ : ℚ) : StatePacer := p

/-- The same process, but for what the pacer has forgotten. -/
structure Alike (s s₀ : State) : Prop where
  pacer : Follows s.clock s.pacer s₀.pacer
  clock : s.clock = s₀.clock
  stack : s.stack = s₀.stack
  emissions : s.emissions = s₀.emissions

/-- No push brings a change of state to a job whose dwell began anew after it was forgotten, in an
earlier push or in this one, and has not passed. -/
def Undisturbed (s s₀ : State) : Act → Prop
  | .push elapsed jobsetId records => ∀ key,
      Lane.Unhurried JobRecord.state s.pacer.wait (s.clock + elapsed) (s.pacer.lane key)
        (s₀.pacer.lane key)
        (recordsOf key jobsetId records)
  | _ => True

namespace Alike

variable {dwell now : ℚ}

theorem emit {s s₀ : State} (h : Alike s s₀) (jobsetId : String) (records : List JobRecord)
    (frame : Frame) :
    Alike (s.emit now jobsetId records frame) (s₀.emit now jobsetId records frame) :=
  ⟨h.pacer, h.clock, congrArg (frame :: ·) h.stack,
    by rw [State.emit, State.emit, h.emissions, h.clock]⟩

theorem drainFrom {flush : Bool} : ∀ {batches : List (String × List Key)} {s s₀ : State},
    Alike s s₀ → Alike (s.drainFrom flush now batches) (s₀.drainFrom flush now batches)
  | [], s, s₀, h => by
      rw [State.drainFrom, State.drainFrom]
      split
      · exact ⟨h.pacer.clear, h.clock, h.stack, h.emissions⟩
      · exact h
  | (jobsetId, keys) :: rest, s, s₀, h => by
      obtain ⟨hrec, hf⟩ := h.pacer.drainKeys flush now keys []
      have hs : Alike { s with pacer := (s.pacer.drainKeys flush now [] keys).1 }
          { s₀ with pacer := (s₀.pacer.drainKeys flush now [] keys).1 } :=
        ⟨hf, h.clock, h.stack, h.emissions⟩
      rw [State.drainFrom, State.drainFrom]
      simp only [← hrec]
      split
      · exact hs.drainFrom
      · exact hs.emit jobsetId _ _

theorem prune {s s₀ : State} (h : Alike s s₀) (hi : Inv dwell s) (limit : ℕ)
    (hc : now ≤ s.clock) : Alike { s with pacer := s.pacer.prune limit now } s₀ :=
  ⟨h.pacer.prune limit hc fun key => (hi.row key).shown_le, h.clock, h.stack, h.emissions⟩

theorem push {s s₀ : State} (h : Alike s s₀) (hi : Inv dwell s) (limit : ℕ) {elapsed : NNRat}
    {jobsetId : String} {records : List JobRecord}
    (hu : Undisturbed s s₀ (.push elapsed jobsetId records)) :
    Alike (s.push (StatePacer.prune limit) (s.clock + elapsed) jobsetId records)
      (s₀.push unpruned (s.clock + elapsed) jobsetId records) := by
  have hle : s.clock ≤ s.clock + elapsed := by simp
  have hi := hi.pushRecords hle jobsetId records
  obtain ⟨hdue, hf⟩ := (h.pacer.mono hle).pushRecords [] hu
  have hs : ∀ emitted : Key → List (ℚ × JobRecord), Alike
      { s with
        pacer := (s.pacer.pushRecords (s.clock + elapsed) jobsetId [] records).1
        clock := s.clock + elapsed
        pushed := fun key => s.pushed key ++ recordsOf key jobsetId records
        emitted := emitted }
      { s₀ with
        pacer := (s₀.pacer.pushRecords (s.clock + elapsed) jobsetId [] records).1
        clock := s.clock + elapsed
        pushed := fun key => s₀.pushed key ++ recordsOf key jobsetId records } :=
    fun _ => ⟨hf, rfl, h.stack, h.emissions⟩
  rw [State.push, State.push]
  simp only [← hdue]
  split
  case isTrue hnil =>
    simp only [hnil, recordsOf_nil, List.map_nil, List.append_nil] at hi
    exact (hs _).prune hi limit le_rfl
  case isFalse => exact (hs s.emitted).emit jobsetId _ _

theorem tick {s s₀ : State} (h : Alike s s₀) (elapsed : NNRat) :
    Alike { s with clock := s.clock + elapsed } { s₀ with clock := s₀.clock + elapsed } :=
  ⟨h.pacer.mono (by simp), by rw [h.clock], h.stack, h.emissions⟩

theorem step {s s₀ : State} (h : Alike s s₀) (hi : Inv dwell s) (limit : ℕ) {a : Act}
    (hu : Undisturbed s s₀ a) :
    Alike (s.step (StatePacer.prune limit) a) (s₀.step unpruned a) := by
  cases a with
  | push elapsed jobsetId records =>
    have hp := h.push hi limit hu
    rw [State.step, State.step, ← h.clock]
    exact hp
  | forget jobsetId jobKeys =>
    exact ⟨h.pacer.forget jobsetId jobKeys, h.clock, h.stack, h.emissions⟩
  | drain elapsed =>
    have hs := h.tick elapsed
    rw [← h.clock] at hs
    rw [State.step, State.step, ← h.clock, ← h.pacer.batches_eq]
    exact hs.drainFrom
  | stop elapsed =>
    have hs : Alike
        { s with
          clock := s.clock + elapsed
          pacer := { s.pacer with dwell := 0 }
          stopping := true }
        { s₀ with
          clock := s.clock + elapsed
          pacer := { s₀.pacer with dwell := 0 }
          stopping := true } :=
      ⟨(h.pacer.mono (by simp)).stop, rfl, h.stack, h.emissions⟩
    rw [State.step, State.step, ← h.clock, ← h.pacer.batches_eq]
    exact hs.drainFrom
  | resume elapsed =>
    have h' := h.tick elapsed
    have hi' := hi.tick elapsed
    rw [State.step, State.step]
    simp only [← h.stack]
    split
    case h_1 => exact ⟨h'.pacer, h'.clock, rfl, h'.emissions⟩
    case h_2 now stack hst =>
      have hf := hi'.frame (.push now) (hst ▸ List.mem_cons_self)
      have hs : Alike { s with clock := s.clock + elapsed, stack := stack }
          { s₀ with clock := s₀.clock + elapsed, stack := stack } :=
        ⟨h'.pacer, h'.clock, rfl, h'.emissions⟩
      exact hs.prune (hi'.returned hst) limit hf.1
    case h_3 flush now batches stack hst =>
      have hs : Alike { s with clock := s.clock + elapsed, stack := stack }
          { s₀ with clock := s₀.clock + elapsed, stack := stack } :=
        ⟨h'.pacer, h'.clock, rfl, h'.emissions⟩
      exact hs.drainFrom

end Alike

/-- **Pruning is not seen**, at any limit, in a run in which no job that was forgotten and shown
again is hurried: the pacer emits what one without `_prune` emits, at the same times. -/
theorem prune_unseen (limit : ℕ) (dwell start : ℚ) (acts : List Act)
    (h : ∀ before a after, acts = before ++ a :: after →
      Undisturbed (runWith (StatePacer.prune limit) dwell start before)
        (runWith unpruned dwell start before) a) :
    (runWith (StatePacer.prune limit) dwell start acts).emissions
      = (runWith unpruned dwell start acts).emissions := by
  suffices hs : Alike (runWith (StatePacer.prune limit) dwell start acts)
    (runWith unpruned dwell start acts) from hs.emissions
  induction acts using List.reverseRecOn with
  | nil => exact ⟨⟨rfl, rfl, fun _ => .refl _ _⟩, rfl, rfl, rfl⟩
  | append_singleton acts a ih =>
    have hacts := ih fun before b after hb => h before b (after ++ [a]) (by simp [hb])
    rw [runWith, runWith, List.foldl_append, List.foldl_append]
    exact hacts.step (inv_runWith limit dwell start acts) limit (h acts a [] rfl)

/-- Only the jobs of its records can be disturbed by a push. -/
theorem undisturbed_push {s s₀ : State} {elapsed : NNRat} {jobsetId : String}
    {records : List JobRecord} (h : ∀ r ∈ records, Lane.Unhurried JobRecord.state s.pacer.wait
      (s.clock + elapsed) (s.pacer.lane (jobsetId, r.jobKey)) (s₀.pacer.lane (jobsetId, r.jobKey))
      (recordsOf (jobsetId, r.jobKey) jobsetId records)) :
    Undisturbed s s₀ (.push elapsed jobsetId records) := by
  intro key
  by_cases hkey : ∃ r ∈ records, (jobsetId, r.jobKey) = key
  · obtain ⟨r, hr, rfl⟩ := hkey
    exact h r hr
  · have hnil : recordsOf key jobsetId records = [] :=
      recordsOf_of_ne fun r hr heq => hkey ⟨r, hr, heq⟩
    rw [hnil]
    exact fun _ _ _ => ⟨fun _ _ => .inl (by simp), fun _ _ _ => .inl (by simp)⟩

/-- What holds of every step of a run, with what went before it. -/
theorem forall_steps_cons {C : List Act → Act → Prop} {b : Act} {acts : List Act} (hb : C [] b)
    (h : ∀ before a after, acts = before ++ a :: after → C (b :: before) a) :
    ∀ before a after, b :: acts = before ++ a :: after → C before a
  | [], _, _, heq => (List.cons.inj heq).1 ▸ hb
  | b' :: before, a, after, heq => by
      obtain ⟨rfl, hacts⟩ := List.cons.inj heq
      exact h before a after hacts

/-- Two jobs go from PEND to RUN, one after the other and long after they were displayed. -/
def started : List Act :=
  let record (jobKey : String) (state : JobState) : JobRecord :=
    { jobsetId := "js", jobKey := jobKey, state := state, generation := 0 }
  [.push 0 "js" [record "a" .pend, record "b" .pend], .resume 0, .push 2 "js" [record "a" .run],
    .resume 0, .push 2 "js" [record "b" .run], .resume 0]

/-- With a limit of one entry each of the two later pushes forgets the other job. -/
theorem prune_unseen_started :
    (runWith (StatePacer.prune 1) 1 0 started).pacer.shown.keys = [("js", "b")] ∧
      (runWith unpruned 1 0 started).pacer.shown.keys = [("js", "a"), ("js", "b")] ∧
      (runWith (StatePacer.prune 1) 1 0 started).emissions
        = (runWith unpruned 1 0 started).emissions := by
  refine ⟨by decide +kernel, by decide +kernel, prune_unseen 1 1 0 started ?_⟩
  refine forall_steps_cons ?_ <| forall_steps_cons trivial <| forall_steps_cons ?_ <|
    forall_steps_cons trivial <| forall_steps_cons ?_ <| forall_steps_cons trivial (by simp)
  · exact fun key => Lane.unhurried_refl _ _
  · refine undisturbed_push fun r hr => ?_
    obtain rfl := List.mem_singleton.mp hr
    exact Lane.unhurried_of_shown (by decide +kernel) _
  · refine undisturbed_push fun r hr => ?_
    obtain rfl := List.mem_singleton.mp hr
    -- `b` has been forgotten, and what comes is a new state
    refine Lane.unhurried_of_new (by decide +kernel) fun s t₀ hs => ?_
    have hshown : ((runWith unpruned 1 0 (started.take 4)).pacer.lane ("js", "b")).shown
        = some (.pend, 0) := by decide +kernel
    rw [show s = .pend from (Prod.mk.inj (Option.some.inj (hs.symm.trans hshown))).1]
    decide

end Lsfmgr.Pacer
