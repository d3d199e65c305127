import Mathlib
import Lsfmgr.Machinery.Ledger
import Lsfmgr.Machinery.Transition
import Lsfmgr.Submit.Gate

/-!
# Lifecycle/Gate — the submit gate over all jobsets, and the life of a kill's barrier

`SubmitGate` is the source's: two tables of lists, an item of which is removed by identity.  Seen
from one jobset it is the gate of `Submit/Gate` (`view`).

A kill raises its barrier in the thread that accepted it, and hands it to the killer's pool; whoever
the kill ends with takes the barrier down: the accepting thread when the task was refused or the
queueing raised, the task itself, however it ends, when it was started.
-/

namespace Lsfmgr.Lifecycle

open Machinery
open Submit (Key Scope)

/-- A scope object: which object it is, and what it covers.  `None` is one object. -/
abbrev ScopeObject := ℕ × Scope

/-- `register()`'s answer: the activity entered, if one was, and the keys the barriers cover. -/
structure Registration where
  activity : Option ℕ
  refused : Finset Key
  deriving DecidableEq

structure SubmitGate where
  activities : Dict String (List ℕ) := ∅
  barriers : Dict String (List ScopeObject) := ∅

namespace SubmitGate

/-- Barrier check and entry in one atomic section. -/
def register (g : SubmitGate) (js : String) (keys : List Key) (act : ℕ) :
    Registration × SubmitGate :=
  let want := keys.toFinset
  let refused := Submit.SubmitGate.refusedBy want (g.barriers.listAt js)
  if want.Nonempty ∧ want ⊆ refused then (⟨none, want⟩, g)
  else (⟨some act, refused⟩, { g with activities := ledgerAdd g.activities js act })

/-- The end of an activity, if there is one. -/
def unregister (g : SubmitGate) (js : String) : Option ℕ → SubmitGate
  | none => g
  | some act => { g with activities := ledgerRemove g.activities js fun a => a = act }

/-- `_barrier_up`: the activities of that moment are taken in the same section. -/
def barrierUp (g : SubmitGate) (js : String) (scope : ScopeObject) : List ℕ × SubmitGate :=
  (g.activities.listAt js, { g with barriers := ledgerAdd g.barriers js scope })

/-- `_barrier_down`, by identity of the scope object. -/
def barrierDown (g : SubmitGate) (js : String) (scope : ScopeObject) : SubmitGate :=
  { g with barriers := ledgerRemove g.barriers js fun b => b.1 = scope.1 }

/-! ## One jobset's view -/

/-- The gate of one jobset. -/
def view (g : SubmitGate) (js : String) : Submit.SubmitGate where
  activities := g.activities.listAt js
  barriers := g.barriers.listAt js

/-- An operation on the tables of one jobset, seen from any. -/
theorem view_of_listAt {g g' : SubmitGate} {js js' : String} {v : Submit.SubmitGate}
    (ha : g'.activities.listAt js' = if js' = js then v.activities else g.activities.listAt js')
    (hb : g'.barriers.listAt js' = if js' = js then v.barriers else g.barriers.listAt js') :
    g'.view js' = if js' = js then v else g.view js' := by
  rw [view, ha, hb]
  split <;> rfl

theorem view_register (g : SubmitGate) (js js' : String) (keys : List Key) (act : ℕ) :
    (g.register js keys act).2.view js'
      = if js' = js then ((g.view js).register act keys.toFinset).2 else g.view js' := by
  by_cases hc : keys.toFinset.Nonempty ∧
      keys.toFinset ⊆ Submit.SubmitGate.refusedBy keys.toFinset (g.barriers.listAt js)
  · have h₁ : g.register js keys act = (⟨none, keys.toFinset⟩, g) := if_pos hc
    have h₂ : (g.view js).register act keys.toFinset = (⟨false, keys.toFinset⟩, g.view js) :=
      if_pos hc
    rw [h₁, h₂]
    split
    case isTrue hjs => rw [hjs]
    case isFalse => rfl
  · have h₁ : g.register js keys act = (⟨some act, _⟩,
        { g with activities := ledgerAdd g.activities js act }) := if_neg hc
    have h₂ : (g.view js).register act keys.toFinset = (⟨true, _⟩,
        ⟨g.activities.listAt js ++ [act], g.barriers.listAt js⟩) := if_neg hc
    rw [h₁, h₂]
    refine view_of_listAt (listAt_ledgerAdd ..) ?_
    split
    case isTrue hjs => rw [hjs]
    case isFalse => rfl

theorem view_unregister (g : SubmitGate) (js js' : String) (act : ℕ) :
    (g.unregister js (some act)).view js'
      = if js' = js then (g.view js).unregister act else g.view js' := by
  refine view_of_listAt ?_ ?_
  · rw [unregister, listAt_ledgerRemove, Submit.SubmitGate.unregister, List.erase_eq_eraseP]
    simp only [view, beq_eq_decide, eq_comm]
  · split
    case isTrue hjs => rw [hjs]; rfl
    case isFalse => rfl

theorem view_barrierUp (g : SubmitGate) (js js' : String) (scope : ScopeObject) :
    (g.barrierUp js scope).2.view js'
      = if js' = js then ((g.view js).barrierUp scope.1 scope.2).2 else g.view js' := by
  refine view_of_listAt ?_ (listAt_ledgerAdd ..)
  split
  case isTrue hjs => rw [hjs]; rfl
  case isFalse => rfl

theorem view_barrierDown (g : SubmitGate) (js js' : String) (scope : ScopeObject) :
    (g.barrierDown js scope).view js'
      = if js' = js then (g.view js).barrierDown scope.1 else g.view js' := by
  refine view_of_listAt ?_ (listAt_ledgerRemove ..)
  split
  case isTrue hjs => rw [hjs]; rfl
  case isFalse => rfl

end SubmitGate

/-! ## The barrier of one kill -/

/-- `KillScope`: `acts` is what `begin` captured, and `none` while no barrier is up. -/
structure KillScope where
  jobset : String
  keys : ScopeObject
  acts : Option (List ℕ) := none
  deriving DecidableEq

namespace KillScope

/-- The barrier goes up once. -/
def begin (k : KillScope) (g : SubmitGate) : KillScope × SubmitGate :=
  match k.acts with
  | some _ => (k, g)
  | none =>
    let (acts, g) := g.barrierUp k.jobset k.keys
    ({ k with acts := some acts }, g)

/-- `release`, under the lock of the scope: whether there is a barrier to take down. -/
def letGo (k : KillScope) : Bool × KillScope :=
  match k.acts with
  | none => (false, k)
  | some _ => (true, { k with acts := none })

end KillScope

/-! ## The system -/

/-- How far a kill has come. -/
inductive Phase
  | created
  /-- The barrier is up, in the accepting thread. -/
  | begun
  | queued
  | running
  /-- Let go, and the barrier still to be taken down. -/
  | releasing
  | ended
  deriving DecidableEq

structure Kill where
  scope : KillScope
  phase : Phase := .created
  deriving DecidableEq

/-- A submission that has called `register`. -/
structure Cycle where
  jobset : String
  token : Option ℕ
  /-- It has not called `unregister`. -/
  live : Bool := true
  deriving DecidableEq

/-- How `queue_fn` ends. -/
inductive Queueing
  | queued
  | refused
  | raises
  deriving DecidableEq

/-- What a kill has done to the barriers. -/
inductive GateOp
  | up (i : ℕ)
  | down (i : ℕ)
  deriving DecidableEq

structure State where
  gate : SubmitGate := {}
  kills : List Kill := []
  cycles : List Cycle := []
  shutdown : Bool := false
  /-- What no step reads. -/
  log : List GateOp := []

inductive Act
  | killScope (js : String) (keys : ScopeObject)
  /-- `_launch_kill`: `scope.begin()`… -/
  | begin (i : ℕ)
  /-- …and `queue_fn()`. -/
  | queue (i : ℕ) (q : Queueing)
  /-- The task acquires its scope, which begins it again. -/
  | acquire (i : ℕ)
  /-- The task returns, or raises at whatever stage it is: its `finally` lets go of the scope. -/
  | finish (i : ℕ)
  /-- The second half of `release`. -/
  | lower (i : ℕ)
  | register (js : String) (keys : List Key)
  | unregister (c : ℕ)
  | shutdown

namespace State

def setKill (s : State) (i : ℕ) (k : Kill) : State := { s with kills := s.kills.set i k }

/-- `scope.begin()` by the kill at index `i`. -/
def beginKill (s : State) (i : ℕ) (k : Kill) (phase : Phase) : State :=
  let (scope, gate) := k.scope.begin s.gate
  { s with gate, log := s.log ++ if k.scope.acts = none then [GateOp.up i] else [] }.setKill i
    { scope, phase }

/-- `scope.release()`, up to the lock of the gate. -/
def letGo (s : State) (i : ℕ) (k : Kill) : State :=
  let (held, scope) := k.scope.letGo
  s.setKill i { scope, phase := if held then .releasing else .ended }

/-- The rest of `release`. -/
def lowerBarrier (s : State) (i : ℕ) (k : Kill) : State :=
  { s with gate := s.gate.barrierDown k.scope.jobset k.scope.keys, log := s.log ++
    [GateOp.down i] }.setKill i
    { k with phase := .ended }

/-- One object has one value. -/
def Consistent (kills : List Kill) (keys : ScopeObject) : Prop :=
  ∀ k ∈ kills, k.scope.keys.1 = keys.1 → k.scope.keys = keys

instance (kills : List Kill) (keys : ScopeObject) : Decidable (Consistent kills keys) :=
  inferInstanceAs (Decidable (∀ k ∈ kills, _))

def step (s : State) : Act → Option State
  | .killScope js keys =>
    if Consistent s.kills keys
      then some { s with kills := s.kills ++ [{ scope := ⟨js, keys, none⟩ }] }
    else none
  | .begin i =>
    match s.kills[i]? with
    | some k => if k.phase = .created then some (s.beginKill i k .begun) else none
    | none => none
  | .queue i q =>
    match s.kills[i]? with
    | some k =>
      if k.phase = .begun then
        match q with
        | .queued => if s.shutdown then none else some (s.setKill i { k with phase := .queued })
        | .refused => if s.shutdown then some (s.letGo i k) else none
        | .raises => some (s.letGo i k)
      else none
    | none => none
  | .acquire i =>
    match s.kills[i]? with
    | some k => if k.phase = .queued then some (s.beginKill i k .running) else none
    | none => none
  | .finish i =>
    match s.kills[i]? with
    | some k => if k.phase = .queued ∨ k.phase = .running then some (s.letGo i k) else none
    | none => none
  | .lower i =>
    match s.kills[i]? with
    | some k => if k.phase = .releasing then some (s.lowerBarrier i k) else none
    | none => none
  | .register js keys =>
    let (reg, gate) := s.gate.register js keys s.cycles.length
    some { s with gate, cycles := s.cycles ++ [⟨js, reg.activity, true⟩] }
  | .unregister c =>
    match s.cycles[c]? with
    | some cyc =>
      some { s with
        gate := s.gate.unregister cyc.jobset cyc.token
        cycles := s.cycles.set c { cyc with live := false } }
    | none => none
  | .shutdown => some { s with shutdown := true }

end State

/-- The gate of a manager, with the kills and the submissions that use it. -/
def system : System State Act where
  init s := s = {}
  step := State.step

end Lsfmgr.Lifecycle
