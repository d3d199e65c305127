import Mathlib
import Lsfmgr.Kill.Task

/-!
# Kill/Marking — how a kill marks its records

Each record a kill may mark has a turn, of one write or two, and a write leaves a mark unless the
record is gone or has become another job by then.  Whatever the others do between any two calls, no
call of a turn changes anything else.
-/

namespace Lsfmgr.Kill

open Machinery Command

/-! ## One write -/

/-- What a mark leaves: the flag, the state with its reason under the optimistic policy, and every
other field as it was but the time and the revision. -/
structure Mark (exit : Bool) (old new : JobRecord) : Prop where
  killed : new.killed = true
  state : new.state = if exit then .exit else old.state
  failReason : new.failReason = if exit then some "KILLED" else old.failReason
  revision : new.revision = old.revision + 1
  rest : { new with
    state := old.state, killed := old.killed, failReason := old.failReason,
      updatedAt := old.updatedAt
    revision := old.revision } = old

/-- The guard of the write; with `exit` it is the one of the optimistic policy. -/
def mayMark (exit : Bool) (r old : JobRecord) : Bool :=
  sameJob r old && (!exit || old.state.isOnLsf)

/-- **How a write of the marking of `r` ends**: the record is gone, its guard refuses, or it is
marked. -/
inductive Attempt (exit : Bool) (r : JobRecord) :
    Call InMemoryStore → Option (Option JobRecord) → Prop
  | gone {c : Call InMemoryStore} : c.before.job? r.jobsetId r.jobKey = none → c.Quiet →
      Attempt exit r c none
  | refused {c : Call InMemoryStore} {old : JobRecord} :
      c.before.job? r.jobsetId r.jobKey = some old →
      mayMark exit r old = false → c.Quiet → Attempt exit r c (some none)
  | marked {c : Call InMemoryStore} {old new : JobRecord} :
      c.before.job? r.jobsetId r.jobKey = some old →
      mayMark exit r old = true → Mark exit old new →
      c.before.Wrote r.jobsetId r.jobKey (some new) c.after → Attempt exit r c (some (some new))

/-- The turn of a record, with what comes of it. -/
inductive Turn (r : JobRecord) : Bool → List (Call InMemoryStore) → Option JobRecord → Prop
  | flag {c : Call InMemoryStore} {x : Option (Option JobRecord)} : Attempt false r c x →
      Turn r false [c] x.join
  | exit {c : Call InMemoryStore} {x : Option (Option JobRecord)} :
      Attempt true r c x → x ≠ some none →
      Turn r true [c] x.join
  | late {c d : Call InMemoryStore} {x : Option (Option JobRecord)} : Attempt true r c (some none) →
      Attempt false r d x → Turn r true [c, d] x.join

/-- What the caller of the write gets. -/
def outcome (r : JobRecord) : Option (Option JobRecord) → Except Failure (Option JobRecord)
  | some new => .ok new
  | none => .error (.store (.jobNotFound r.jobsetId r.jobKey))

/-- The write of a turn. -/
def markWrite (exit : Bool) (r : JobRecord) (s : InMemoryStore) (now : Time) :
    Except StoreError (Option JobRecord × InMemoryStore) :=
  if exit then markExit s now r else markFlag s now r

variable {w : World} {policy : Policy} {a : Amid InMemoryStore Notes} {r : JobRecord}

theorem markWrite_cases (exit : Bool) (s : InMemoryStore) (now : Time) :
    ∃ p fields, markWrite exit r s now
        = s.transition now r.jobsetId r.jobKey
          (if exit then some .exit else none) (Guard.of p) fields ∧
      (∀ f ∈ fields, f.Plain) ∧ (∀ old, p old = mayMark exit r old) ∧
      ∀ old : JobRecord, Mark exit old
        (old.rewrite now ((if exit then some .exit else none).getD old.state)
            old.revision fields) := by
  cases exit with
  | true =>
    exact ⟨fun cur => sameJob r cur && cur.state.isOnLsf,
      [.failReason (some "KILLED"), .killed true], rfl,
      by decide, fun old => by simp [mayMark], fun old => ⟨rfl, rfl, rfl, rfl, rfl⟩⟩
  | false =>
    exact ⟨sameJob r, [.killed true], rfl, by decide, fun old => by simp [mayMark],
      fun old => ⟨rfl, rfl, rfl, rfl, rfl⟩⟩

/-- **One write.** -/
theorem write_attempt (exit : Bool) (hp : (w.others a.log.length a.shared).Placed) :
    ∃ c x, Attempt exit r c x ∧ c.before = w.others a.log.length a.shared ∧ c.after.Placed ∧
      write w (markWrite exit r) a = (outcome r x, ⟨c.after, a.log ++ [c], a.notes⟩) := by
  obtain ⟨p, fields, hwrite, hplain, hguard, hmark⟩ := markWrite_cases (r := r) exit
    (w.others a.log.length a.shared) (w.clock a.log.length)
  have hcases :=
    InMemoryStore.transition_cases r.jobsetId r.jobKey (w.clock a.log.length) fields hp hplain
    (if exit then some .exit else none) p
  rw [← hwrite] at hcases
  generalize hres :
    markWrite exit r (w.others a.log.length a.shared) (w.clock a.log.length) = res at hcases
  cases hcases with
  | gone hj =>
    exact ⟨⟨_, _⟩, none, .gone hj rfl, rfl, hp, by simp only [write, Amid.call, hres, outcome]⟩
  | refused hj hrefused =>
    exact ⟨⟨_, _⟩, some none, .refused hj (by rw [← hguard]; exact hrefused) rfl, rfl, hp,
      by simp only [write, Amid.call, hres, outcome]⟩
  | @done old s' hj hdone hwrote =>
    exact ⟨⟨_, _⟩, some (some _), .marked hj (by rw [← hguard]; exact hdone)
      (hmark old) hwrote, rfl, hwrote.placed hp, by simp only [write, Amid.call, hres, outcome]⟩

theorem Attempt.quiet_or_marked {exit : Bool} {c : Call InMemoryStore}
    {x : Option (Option JobRecord)}
    (h : Attempt exit r c x) : c.Quiet ∨ ∃ old new, c.before.job? r.jobsetId r.jobKey = some old ∧
      mayMark exit r old = true ∧ Mark exit old new ∧
      c.before.Wrote r.jobsetId r.jobKey (some new) c.after := by
  cases h with
  | gone _ hquiet => exact .inl hquiet
  | refused _ _ hquiet => exact .inl hquiet
  | marked hj hmay hmark hwrote => exact .inr ⟨_, _, hj, hmay, hmark, hwrote⟩

/-- What the calls of a turn have done. -/
theorem Turn.quiet_or_marked {optimistic : Bool} {calls : List (Call InMemoryStore)}
    {new : Option JobRecord}
    (h : Turn r optimistic calls new) : ∀ c ∈ calls, c.Quiet ∨ ∃ exit old new,
      (exit = true → optimistic = true) ∧ c.before.job? r.jobsetId r.jobKey = some old ∧
      mayMark exit r old = true ∧ Mark exit old new ∧
      c.before.Wrote r.jobsetId r.jobKey (some new) c.after := by
  have one {exit : Bool} {c : Call InMemoryStore} {x : Option (Option JobRecord)}
    (hx : Attempt exit r c x)
      (hopt : exit = true → optimistic = true) : c.Quiet ∨ ∃ exit old new,
        (exit = true → optimistic = true) ∧ c.before.job? r.jobsetId r.jobKey = some old ∧
        mayMark exit r old = true ∧ Mark exit old new ∧
        c.before.Wrote r.jobsetId r.jobKey (some new) c.after := by
    rcases hx.quiet_or_marked with hquiet | ⟨old, new, hmark⟩
    · exact .inl hquiet
    · exact .inr ⟨exit, old, new, hopt, hmark⟩
  cases h with
  | flag hx => exact List.forall_mem_singleton.mpr (one hx id)
  | exit hx _ => exact List.forall_mem_singleton.mpr (one hx id)
  | late hx hx' =>
    exact List.forall_mem_cons.mpr ⟨one hx id, List.forall_mem_singleton.mpr (one hx' fun _ => rfl)⟩

/-! ## A turn, and the loop -/

/-- The others keep the placement of the store. -/
def World.Lawful (w : World) : Prop := ∀ n s, InMemoryStore.Placed s → (w.others n s).Placed

/-- What is added to the list of changed records. -/
def reported (optimistic : Bool) (new : Option JobRecord) : Option JobRecord :=
  new.filter fun new => optimistic ∨ new.state.isTerminal

/-- The calls that lead from `a` to the store `after`. -/
structure Added (w : World) (a : Amid InMemoryStore Notes) (calls : List (Call InMemoryStore))
    (after : InMemoryStore) : Prop where
  chained : ∀ start, Chained w.others start a.log a.shared →
    Chained w.others start (a.log ++ calls) after
  placed : after.Placed

theorem Added.trans {calls calls' : List (Call InMemoryStore)} {after after' : InMemoryStore}
    (h : Added w a calls after) (h' : Added w ⟨after, a.log ++ calls, a.notes⟩ calls' after') :
    Added w a (calls ++ calls') after' :=
  ⟨fun start hs => by
    have := h'.chained start (h.chained start hs)
    rwa [List.append_assoc] at this, h'.placed⟩

/-- One write, with the calls it adds. -/
theorem write_turn (hw : w.Lawful) (exit : Bool) (r : JobRecord) (hp : a.shared.Placed) :
    ∃ c x, Attempt exit r c x ∧ Added w a [c] c.after ∧
      write w (markWrite exit r) a = (outcome r x, ⟨c.after, a.log ++ [c], a.notes⟩) := by
  obtain ⟨⟨before, after⟩, x, hx, rfl, hplaced, heq⟩ := write_attempt (r := r) exit (hw _ _ hp)
  exact ⟨_, x, hx, ⟨fun start hs => hs.call after, hplaced⟩, heq⟩

theorem markOne_flag (hopt : policy.optimistic = false) :
    markOne w policy r a = write w (markWrite false r) a := by
  rw [markOne, if_neg (by simp [hopt])]
  rfl

theorem markOne_exit (hopt : policy.optimistic = true) :
    markOne w policy r a = (do
      match ← write w (markWrite true r) with
      | some new => pure (some new)
      | none => write w (markWrite false r)) a := by
  rw [markOne, if_pos hopt]
  rfl

/-- **A turn** adds its calls, and does not raise. -/
theorem markStep_turn (policy : Policy) (hw : w.Lawful) (r : JobRecord) (hp : a.shared.Placed) :
    ∃ calls new after, Turn r policy.optimistic calls new ∧ Added w a calls after ∧
      markStep w policy r a = (.ok (reported policy.optimistic new),
          ⟨after, a.log ++ calls, a.notes⟩) := by
  have hstep (x : Option (Option JobRecord)) {a' : Amid InMemoryStore Notes}
      (h : markOne w policy r a = (outcome r x, a')) :
      markStep w policy r a = (.ok (reported policy.optimistic x.join), a') := by
    rcases x with - | new
    · exact Prog.bind_ok (Amid.catching_caught h rfl) _
    · exact Prog.bind_ok (Amid.catching_ok h) _
  rcases hopt : policy.optimistic with - | -
  · obtain ⟨c, x, hx, hadded, heq⟩ := write_turn hw false r hp
    rw [← markOne_flag hopt] at heq
    rw [← hopt]
    exact ⟨[c], x.join, c.after, hopt ▸ .flag hx, hadded, hstep x heq⟩
  · obtain ⟨c, x, hx, hadded, heq⟩ := write_turn hw true r hp
    rw [hopt] at hstep
    rcases x with - | - | new
    · exact ⟨[c], none, c.after, .exit hx (by simp), hadded,
        hstep none (by rw [markOne_exit hopt, Prog.bind_error heq]; rfl)⟩
    · obtain ⟨d, x, hx', hadded', heq'⟩ := write_turn
        (a := ⟨c.after, a.log ++ [c], a.notes⟩) hw false r
        hadded.placed
      refine ⟨[c, d], x.join, d.after, .late hx hx', hadded.trans hadded', hstep x ?_⟩
      rw [markOne_exit hopt, Prog.bind_ok heq]
      simp only [heq', List.append_assoc, List.singleton_append]
    · exact ⟨[c], some new, c.after, .exit hx (by simp), hadded,
        hstep (some (some new)) (by rw [markOne_exit hopt, Prog.bind_ok heq]; rfl)⟩

/-- **The loop** gives every record its turn, in order. -/
theorem each_turns (policy : Policy) (hw : w.Lawful) (killed : List JobRecord)
    (hp : a.shared.Placed) :
    ∃ turns xs after, List.Forall₂ (fun r calls => ∃ new, Turn r policy.optimistic calls new) killed
      turns ∧
      Added w a turns.flatten after ∧
      Prog.each (markStep w policy) killed a =
          (.ok xs, ⟨after, a.log ++ turns.flatten, a.notes⟩) := by
  induction killed generalizing a with
  | nil =>
    exact ⟨[], [], a.shared, .nil, ⟨fun start hs => by simpa using hs, hp⟩,
      by simp [Prog.each, pure]⟩
  | cons r killed ih =>
    obtain ⟨calls, new, after, hturn, hadded, heq⟩ := markStep_turn policy hw r hp
    obtain ⟨turns, xs, after', hturns, hadded', heq'⟩ := ih (a := ⟨after, a.log ++ calls, a.notes⟩)
      hadded.placed
    refine ⟨calls :: turns, reported policy.optimistic new :: xs, after', .cons ⟨new, hturn⟩ hturns,
      hadded.trans hadded', ?_⟩
    rw [Prog.each, Prog.bind_ok heq, Prog.bind_ok heq', List.flatten_cons, ← List.append_assoc]
    rfl

end Lsfmgr.Kill
