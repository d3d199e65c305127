import Mathlib
import Lsfmgr.Handlers.Service

/-!
# Handlers/Exclusive — handler runs exclude each other, and none is left behind

The in-flight mark of a job stands from before its item enters the queue until the handler came
back, so no second item for it can be queued: `Guarded.marked` and `Guarded.distinct`.  A worker
signs off in the critical section in which it finds the queue empty, so a queue that is not empty
has a worker as soon as `_pump` has run: `Guarded.awake`.  What was ever queued is queued, in a
handler, completed or dropped (`Guarded.ledger`), which is what `shutdown` rests on: past
`waitForDone` the first two are empty.
-/

namespace Lsfmgr

namespace Handlers

open Machinery

/-! ## What the workers hold -/

/-- The item a worker keeps marked. -/
def Worker.marks (w : Worker) : Multiset Item := w.item?.toList

/-- The item a worker has in the handler. -/
def Worker.inHandler : Worker → Multiset Item
  | .running i => {i}
  | _ => 0

@[simp] theorem Worker.marks_top : Worker.top.marks = 0 := rfl
@[simp] theorem Worker.marks_running (i : Item) : (Worker.running i).marks = {i} := rfl
@[simp] theorem Worker.inHandler_top : Worker.top.inHandler = 0 := rfl
@[simp] theorem Worker.inHandler_running (i : Item) : (Worker.running i).inHandler = {i} := rfl

/-- The steps a worker still takes for what it holds. -/
def Worker.work : Worker → ℕ
  | .top => 1
  | .running _ => 5
  | .returned .. => 4
  | .emitting .. => 3
  | .rechecking _ => 2

namespace Main

/-- The workers that `_pump` has reserved and not yet started. -/
def toStart : Main → ℕ
  | starting n => n
  | _ => 0

/-- Items may have been queued that `_pump` has not seen. -/
def filling : Main → Bool
  | evaluating _ | marking .. | enqueuing .. => true
  | _ => false

end Main

namespace Service

/-- The items queued or being run. -/
def held (s : Service) : Multiset Item := s.queue + (s.workers.map Worker.marks).sum

/-- The items being run. -/
def running (s : Service) : List Item := s.workers.filterMap Worker.item?

theorem coe_running (s : Service) :
    (s.running : Multiset Item) = (s.workers.map Worker.marks).sum := by
  rw [running]
  induction s.workers with
  | nil => rfl
  | cons w ws ih =>
    rw [List.map_cons, List.sum_cons, ← ih, List.filterMap_cons, Worker.marks]
    cases w.item? <;> rfl

/-- The steps left to the workers. -/
def work (s : Service) : ℕ := 5 * s.queue.length + (s.workers.map Worker.work).sum

end Service

/-! ## The invariant -/

/-- What the control point of the main thread knows. -/
def Main.Knows (s : Service) : Main → Prop
  | .marking i _ => i.key ∉ s.inflight
  | .enqueuing i _ => i.key ∈ s.inflight ∧ i.key ∉ s.held.map Item.key
  | .clearing => s.workers = []
  | _ => True

structure Guarded (s : Service) : Prop where
  distinct : (s.held.map Item.key).Nodup
  marked : ∀ i ∈ s.held, i.key ∈ s.inflight
  knows : s.main.Knows s
  draining_eq : s.draining = s.workers.length + s.main.toStart
  draining_le : s.draining ≤ maxHandlerWorkers
  awake : s.main.filling = false → s.queue ≠ [] → 0 < s.draining
  ledger : (s.enqueued : Multiset Item)
    = s.queue + (s.workers.map Worker.inHandler).sum + s.completed + s.dropped
  thinned : ∀ i ∈ s.dropped, i.final = false

theorem guarded_init : Guarded {} where
  distinct := by simp [Service.held]
  marked := by simp [Service.held]
  knows := trivial
  draining_eq := rfl
  draining_le := by decide
  awake := fun _ h => absurd rfl h
  ledger := by simp
  thinned := by simp

section Steps

variable {s s' : Service}

/-- A step that touches neither the queue, nor the workers, nor the marks. -/
structure SameRuns (s s' : Service) : Prop where
  inflight : s'.inflight = s.inflight
  queue : s'.queue = s.queue
  draining : s'.draining = s.draining
  workers : s'.workers = s.workers
  enqueued : s'.enqueued = s.enqueued
  started : s'.started = s.started
  completed : s'.completed = s.completed
  dropped : s'.dropped = s.dropped

theorem SameRuns.refl (s : Service) : SameRuns s s := ⟨rfl, rfl, rfl, rfl, rfl, rfl, rfl, rfl⟩

theorem sameRuns_evalRecord (s : Service) (k : HandlerKey) (rec : JobRecord)
    (todo : List (HandlerKey × JobRecord)) : SameRuns s (s.evalRecord k rec todo) := by
  rw [Service.evalRecord]
  split <;> exact ⟨rfl, rfl, rfl, rfl, rfl, rfl, rfl, rfl⟩

/-- **What the event loop does is prepared, not run**: an event leaves the runs alone, and the main
thread where it was, before evaluations, or in `shutdown`. -/
theorem sameRuns_handle {e : Event} (hs : s.handle e = some s') :
    SameRuns s s' ∧
        (s'.main = s.main ∨ s'.main = .dropping ∨ ∃ todo, s'.main = .evaluating todo) := by
  have same : ∀ t : Service, t.main = s.main → SameRuns s t → SameRuns s t ∧
      (t.main = s.main ∨ t.main = .dropping ∨ ∃ todo, t.main = .evaluating todo) :=
    fun t hm h => ⟨h, .inl hm⟩
  cases e with
  | addHandler js name startStates endStates =>
    obtain rfl := Option.some.inj hs
    rw [Service.addHandler]
    split
    · exact same _ rfl (.refl s)
    · exact same _ rfl ⟨rfl, rfl, rfl, rfl, rfl, rfl, rfl, rfl⟩
  | removeHandler | removeAll | rearm =>
    obtain rfl := Option.some.inj hs
    exact same _ rfl ⟨rfl, rfl, rfl, rfl, rfl, rfl, rfl, rfl⟩
  | tick js fault =>
    obtain rfl := Option.some.inj hs
    rw [Service.tick]
    split
    · exact same _ rfl (.refl s)
    · split
      · exact same _ rfl ⟨rfl, rfl, rfl, rfl, rfl, rfl, rfl, rfl⟩
      · exact ⟨⟨rfl, rfl, rfl, rfl, rfl, rfl, rfl, rfl⟩, .inr (.inr ⟨_, rfl⟩)⟩
  | recheck fault =>
    simp only [Service.handle, Service.onRecheck] at hs
    split at hs
    · cases hs
    · split at hs
      · split at hs
        · cases hs
          exact ⟨⟨rfl, rfl, rfl, rfl, rfl, rfl, rfl, rfl⟩, .inr (.inr ⟨_, rfl⟩)⟩
        · cases hs
          exact same _ rfl ⟨rfl, rfl, rfl, rfl, rfl, rfl, rfl, rfl⟩
      · cases hs
        exact same _ rfl ⟨rfl, rfl, rfl, rfl, rfl, rfl, rfl, rfl⟩
  | shutdown =>
    obtain rfl := Option.some.inj hs
    exact ⟨⟨rfl, rfl, rfl, rfl, rfl, rfl, rfl, rfl⟩, .inr (.inl rfl)⟩

/-- A step of the main thread alone. -/
theorem Guarded.congr (h : Guarded s) (hsame : SameRuns s s') (hm : s'.main.Knows s')
    (hn : s'.main.toStart = s.main.toStart)
    (hf : s'.main.filling = false → s.main.filling = false) : Guarded s' where
  distinct := by rw [Service.held, hsame.queue, hsame.workers]; exact h.distinct
  marked := by rw [Service.held, hsame.queue, hsame.workers, hsame.inflight]; exact h.marked
  knows := hm
  draining_eq := by rw [hsame.draining, hsame.workers, hn]; exact h.draining_eq
  draining_le := hsame.draining ▸ h.draining_le
  awake := by rw [hsame.queue, hsame.draining]; exact fun hs => h.awake (hf hs)
  ledger := by
    rw [hsame.enqueued, hsame.queue, hsame.workers, hsame.completed, hsame.dropped]
    exact h.ledger
  thinned := hsame.dropped ▸ h.thinned

/-- A step off the main thread, seen from its control point: marks only go, and only those of held
items; the workers stay away once they are gone. -/
theorem Main.Knows.mono {m : Main} (h : m.Knows s) (hi : s'.inflight ⊆ s.inflight)
    (hkeep : ∀ i todo, m = .enqueuing i todo → i.key ∈ s'.inflight)
    (hheld : ∀ k, k ∈ s'.held.map Item.key → k ∈ s.held.map Item.key)
    (hw : s.workers = [] → s'.workers = []) : m.Knows s' := by
  cases m with
  | marking i todo => exact fun hmem => h (hi hmem)
  | enqueuing i todo => exact ⟨hkeep i todo rfl, fun hmem => h.2 (hheld _ hmem)⟩
  | clearing => exact hw h
  | _ => trivial

/-! ### The main thread -/

theorem Guarded.handle (h : Guarded s) (hidle : s.main = .idle) {e : Event}
    (hs : s.handle e = some s') : Guarded s' := by
  obtain ⟨hsame, hm⟩ := sameRuns_handle hs
  rw [hidle] at hm
  refine h.congr hsame ?_ ?_ fun _ => by rw [hidle]; rfl
  · rcases hm with hm | hm | ⟨todo, hm⟩ <;> rw [hm] <;> trivial
  · rw [hidle]
    rcases hm with hm | hm | ⟨todo, hm⟩ <;> rw [hm] <;> rfl

/-- **Without workers nothing is queued or run**, once `_pump` is through. -/
theorem Guarded.held_eq_zero (h : Guarded s) (hw : s.workers = []) (hn : s.main.toStart = 0)
    (hf : s.main.filling = false) : s.held = 0 := by
  have hq : s.queue = [] := by
    by_contra hq
    have := h.awake hf hq
    have := h.draining_eq
    simp only [hw, hn, List.length_nil] at this
    omega
  simp [Service.held, hq, hw]

theorem Handler.not_inflight_of_run {h : Handler} {inflight : Bool} {rec : JobRecord} {final : Bool}
    (hv : h.verdict inflight rec = .run final) : inflight = false := by
  by_contra hi
  simp [Handler.verdict, eq_true_of_ne_false hi] at hv

theorem Guarded.evalRecord (h : Guarded s) {k : HandlerKey} {rec : JobRecord}
    {todo : List (HandlerKey × JobRecord)} (hm : s.main = .evaluating ((k, rec) :: todo)) :
    Guarded (s.evalRecord k rec todo) := by
  refine h.congr (sameRuns_evalRecord s k rec todo) ?_ ?_ ?_ <;> rw [Service.evalRecord] <;> split
  · trivial
  · dsimp only
    split
    case h_1 final hv => simpa [Main.Knows, Item.key] using Handler.not_inflight_of_run hv
    case h_2 => trivial
  · rw [hm]
    rfl
  · dsimp only
    split <;> rw [hm] <;> rfl
  · exact nofun
  · dsimp only
    split <;> exact nofun

theorem Guarded.mark (h : Guarded s) {i : Item} {todo : List (HandlerKey × JobRecord)}
    (hm : s.main = .marking i todo) :
    Guarded { s with inflight := insert i.key s.inflight, main := .enqueuing i todo } := by
  have hnew : i.key ∉ s.inflight := by simpa [hm, Main.Knows] using h.knows
  exact
    { h with
      marked := fun j hj => Finset.mem_insert_of_mem (h.marked j hj)
      knows := by
        refine ⟨Finset.mem_insert_self _ _, fun hmem => hnew ?_⟩
        obtain ⟨j, hj, hkey⟩ := Multiset.mem_map.mp hmem
        exact hkey ▸ h.marked j hj
      draining_eq := by simpa [hm, Main.toStart] using h.draining_eq
      awake := nofun }

theorem Guarded.enqueue (h : Guarded s) {i : Item} {todo : List (HandlerKey × JobRecord)}
    (hm : s.main = .enqueuing i todo) :
    Guarded { s with
      queue := s.queue ++ [i], enqueued := s.enqueued ++ [i], main := .evaluating todo } := by
  obtain ⟨hmark, hfree⟩ : i.key ∈ s.inflight ∧ i.key ∉ s.held.map Item.key := by
    have := h.knows
    rwa [hm] at this
  have hheld : ({ s with
      queue := s.queue ++ [i], enqueued := s.enqueued ++ [i], main := .evaluating todo } :
      Service).held = i ::ₘ s.held := by
    simp only [Service.held, ← Multiset.coe_add, ← Multiset.singleton_add, Multiset.coe_singleton]
    abel
  exact
    { h with
      distinct := by
        rw [hheld, Multiset.map_cons]; exact Multiset.nodup_cons.mpr ⟨hfree, h.distinct⟩
      marked := by
        rw [hheld]
        intro j hj
        rcases Multiset.mem_cons.mp hj with rfl | hj
        · exact hmark
        · exact h.marked j hj
      knows := trivial
      draining_eq := by simpa [hm, Main.toStart] using h.draining_eq
      awake := nofun
      ledger := by
        dsimp only
        rw [← Multiset.coe_add, ← Multiset.coe_add, h.ledger]
        abel }

/-- **`_pump` leaves a worker to a queue that is not empty.** -/
theorem Guarded.reserve (h : Guarded s) (hm : s.main = .evaluating []) : Guarded s.reserve := by
  have hle := h.draining_le
  have heq : s.draining = s.workers.length := by simpa [hm, Main.toStart] using h.draining_eq
  have hmax : (maxHandlerWorkers : ℤ) = 4 := rfl
  refine
    { h with
      knows := trivial
      draining_eq := ?_
      draining_le := ?_
      awake := fun _ hq => ?_ }
  · simp only [Service.reserve, Main.toStart]
    omega
  · simp only [Service.reserve]
    omega
  · have : 0 < s.queue.length := List.length_pos_iff.mpr hq
    simp only [Service.reserve]
    omega

theorem Guarded.start (h : Guarded s) {n : ℕ} (hm : s.main = .starting (n + 1)) :
    Guarded { s with workers := s.workers ++ [.top], main := .starting n } := by
  have hsum (f : Worker → Multiset Item) (hf : f .top = 0) :
      ((s.workers ++ [Worker.top]).map f).sum = (s.workers.map f).sum := by simp [hf]
  refine
    { h with
      distinct := ?_
      marked := ?_
      knows := trivial
      draining_eq := ?_
      awake := fun _ => h.awake (by rw [hm]; rfl)
      ledger := ?_ }
  · rw [Service.held, hsum Worker.marks rfl]
    exact h.distinct
  · rw [Service.held, hsum Worker.marks rfl]
    exact h.marked
  · have heq := h.draining_eq
    rw [hm, Main.toStart] at heq
    simp only [List.length_append, List.length_singleton, Main.toStart]
    omega
  · rw [hsum Worker.inHandler rfl]
    exact h.ledger

/-- The queue is what `shutdown` keeps of it and what it drops. -/
theorem queue_parts (queue : List Item) : (queue : Multiset Item)
    = queue.filter (·.final) + queue.filter fun i => !i.final := by
  simpa using (Multiset.filter_add_not (fun i : Item => i.final = true)
    (queue : Multiset Item)).symm

theorem Guarded.dropIntermediate (h : Guarded s) (hm : s.main = .dropping) :
    Guarded s.dropIntermediate := by
  have hle : s.dropIntermediate.held ≤ s.held := by
    refine Multiset.add_le_add_right ?_
    exact Multiset.coe_le.mpr (List.filter_sublist.subperm)
  exact
    { h with
      distinct := Multiset.nodup_of_le (Multiset.map_le_map hle) h.distinct
      marked := fun i hi => h.marked i (Multiset.mem_of_le hle hi)
      knows := trivial
      draining_eq := by simpa [hm, Main.toStart, Service.dropIntermediate] using h.draining_eq
      awake := fun _ hq => h.awake (by rw [hm]; rfl) fun hnil =>
        hq (by simp [Service.dropIntermediate, hnil])
      ledger := by
        simp only [Service.dropIntermediate]
        rw [← Multiset.coe_add, h.ledger, queue_parts]
        abel
      thinned := by
        simp only [Service.dropIntermediate, List.mem_append, List.mem_filter]
        rintro i (hi | ⟨-, hi⟩)
        · exact h.thinned i hi
        · simpa using hi }

theorem Guarded.mainStep (h : Guarded s) (hs : s.mainStep = some s') : Guarded s' := by
  rw [Service.mainStep] at hs
  split at hs
  · cases hs
  case h_2 hm => exact Option.some.inj hs ▸ h.reserve hm
  case h_3 hm => exact Option.some.inj hs ▸ h.evalRecord hm
  case h_4 hm => exact Option.some.inj hs ▸ h.mark hm
  case h_5 hm => exact Option.some.inj hs ▸ h.enqueue hm
  case h_6 hm =>
    cases hs
    exact h.congr ⟨rfl, rfl, rfl, rfl, rfl, rfl, rfl, rfl⟩ trivial (by rw [hm]; rfl)
      fun _ => by rw [hm]; rfl
  case h_7 hm => exact Option.some.inj hs ▸ h.start hm
  case h_8 hm => exact Option.some.inj hs ▸ h.dropIntermediate hm
  case h_9 hm =>
    split at hs
    · cases hs
      exact h.congr ⟨rfl, rfl, rfl, rfl, rfl, rfl, rfl, rfl⟩ ‹_› (by rw [hm]; rfl)
        fun _ => by rw [hm]; rfl
    · cases hs
  case h_10 hm =>
    cases hs
    have hgone : s.workers = [] := by
      have := h.knows
      rwa [hm] at this
    have hempty := h.held_eq_zero hgone (by rw [hm]; rfl) (by rw [hm]; rfl)
    exact
      { h with
        marked := fun i hi => by
          have hi : i ∈ s.held := hi
          rw [hempty] at hi
          exact absurd hi (Multiset.notMem_zero i)
        knows := trivial
        draining_eq := by simpa [hm, Main.toStart] using h.draining_eq
        awake := fun _ => h.awake (by rw [hm]; rfl) }

/-! ### The workers -/

/-- A worker's step that leaves what is held, and so the marks, alone. -/
theorem Guarded.off_main (h : Guarded s) (hheld : s'.held = s.held) (hi : s'.inflight = s.inflight)
    (hm : s'.main = s.main) (hd : s'.draining = s'.workers.length + s.main.toStart)
    (hle : s'.draining ≤ s.draining) (ha : s'.queue ≠ [] → s'.draining = s.draining ∧ s.queue ≠ [])
    (hw : s.workers ≠ []) (hp : s'.dropped = s.dropped)
    (hl : (s'.enqueued : Multiset Item)
      = s'.queue + (s'.workers.map Worker.inHandler).sum + s'.completed + s'.dropped) :
    Guarded s' where
  distinct := hheld ▸ h.distinct
  marked := by rw [hheld, hi]; exact h.marked
  knows := by
    rw [hm]
    refine h.knows.mono hi.le (fun i todo heq => ?_) (fun k => by rw [hheld]; exact id)
      fun hnil => absurd hnil hw
    have := h.knows
    rw [heq] at this
    exact hi ▸ this.1
  draining_eq := by rw [hm]; exact hd
  draining_le := hle.trans h.draining_le
  awake := fun hf hq => by
    obtain ⟨hd, hq⟩ := ha hq
    rw [hd]
    exact h.awake (hm ▸ hf) hq
  ledger := hl
  thinned := hp ▸ h.thinned

section Worker

variable {w : ℕ} {t : Worker}

theorem Guarded.draining_replace (h : Guarded s) (ht : s.workers[w]? = some t) (t' : Worker) :
    s.draining = (replaceAt s.workers w [t']).length + s.main.toStart := by
  have := length_replaceAt ht [t']
  rw [List.length_singleton] at this
  rw [h.draining_eq, Nat.add_right_cancel this]

theorem held_replace (ht : s.workers[w]? = some t) {t' : Worker} {q : List Item}
    (hq : (q : Multiset Item) + t'.marks = s.queue + t.marks) :
    (q : Multiset Item) + ((replaceAt s.workers w [t']).map Worker.marks).sum = s.held := by
  have := sum_replaceAt Worker.marks ht [t']
  rw [List.map_singleton, List.sum_singleton] at this
  refine add_right_cancel (b := t.marks) ?_
  rw [add_assoc, this, Service.held, ← add_assoc, add_right_comm, hq]
  abel

theorem inHandler_replace (ht : s.workers[w]? = some t) (t' : Worker) :
    ((replaceAt s.workers w [t']).map Worker.inHandler).sum + t.inHandler
      = (s.workers.map Worker.inHandler).sum + t'.inHandler := by
  simpa using sum_replaceAt Worker.inHandler ht [t']

theorem ne_nil_of_getElem? (ht : s.workers[w]? = some t) : s.workers ≠ [] := by
  rintro hnil
  simp [hnil] at ht

/-- A worker leaves the loop only when it finds the queue empty. -/
theorem Guarded.take (h : Guarded s) (ht : s.workers[w]? = some .top) : Guarded (s.take w) := by
  rw [Service.take]
  split
  case h_1 hq =>
    have hlen := length_replaceAt ht []
    have hsum := sum_replaceAt Worker.marks ht []
    have hin := sum_replaceAt Worker.inHandler ht []
    simp only [List.map_nil, List.sum_nil, add_zero, List.length_nil, Worker.marks_top,
      Worker.inHandler_top] at hlen hsum hin
    have heq := h.draining_eq
    refine h.off_main ?_ rfl rfl ?_ ?_ (fun hne => absurd hq hne) (ne_nil_of_getElem? ht) rfl ?_
    · rw [Service.held, Service.held, ← hsum]
    · dsimp only
      omega
    · dsimp only
      omega
    · dsimp only
      rw [h.ledger, ← hin]
  case h_2 item queue hq =>
    have hin := inHandler_replace ht (.running item)
    refine h.off_main ?_ rfl rfl (h.draining_replace ht _) le_rfl (fun _ => ⟨rfl, by simp [hq]⟩)
      (ne_nil_of_getElem? ht) rfl ?_
    · refine held_replace ht ?_
      rw [hq, ← Multiset.cons_coe, ← Multiset.singleton_add, Worker.marks_running, Worker.marks_top]
      abel
    · rw [Worker.inHandler_top, add_zero, Worker.inHandler_running] at hin
      dsimp only
      rw [hin, h.ledger, hq, ← Multiset.cons_coe, ← Multiset.singleton_add]
      abel

/-- The handler comes back: the item is run, and still marked. -/
theorem Guarded.comeBack (h : Guarded s) {i : Item} (ht : s.workers[w]? = some (.running i))
    (r : HandlerResult) :
    Guarded { s with
      workers := replaceAt s.workers w [.returned i r], completed := s.completed ++ [i] } := by
  have hin := inHandler_replace ht (.returned i r)
  refine h.off_main (held_replace ht rfl) rfl rfl (h.draining_replace ht _) le_rfl
    (fun hq => ⟨rfl, hq⟩) (ne_nil_of_getElem? ht) rfl ?_
  have hin : ((replaceAt s.workers w [.returned i r]).map Worker.inHandler).sum + {i}
      = (s.workers.map Worker.inHandler).sum := by simpa [Worker.inHandler] using hin
  dsimp only
  rw [h.ledger, ← hin, ← Multiset.coe_add, Multiset.coe_singleton]
  abel

/-- A worker that holds no mark, neither before nor after. -/
theorem Guarded.unmarked (h : Guarded s) (ht : s.workers[w]? = some t) {t' : Worker}
    (hm : t.marks = 0) (hm' : t'.marks = 0) (hi : t.inHandler = 0) (hi' : t'.inHandler = 0)
    (finished : List HandlerResult) (rechecks : List InflightKey) :
    Guarded { s with workers := replaceAt s.workers w [t'], finished, rechecks } := by
  refine h.off_main (held_replace ht (by rw [hm, hm'])) rfl rfl (h.draining_replace ht _) le_rfl
    (fun hq => ⟨rfl, hq⟩) (ne_nil_of_getElem? ht) rfl ?_
  have hin := inHandler_replace ht t'
  rw [hi, hi', add_zero, add_zero] at hin
  dsimp only
  rw [hin]
  exact h.ledger

/-- The mark of an item that was run goes. -/
theorem Guarded.clear (h : Guarded s) {i : Item} {r : HandlerResult}
    (ht : s.workers[w]? = some (.returned i r)) :
    Guarded { s with
      inflight := s.inflight.erase i.key, workers := replaceAt s.workers w [.emitting i r] } := by
  have hsum := sum_replaceAt Worker.marks ht [.emitting i r]
  have hin := inHandler_replace ht (.emitting i r)
  have hheld : s.held = i ::ₘ ({ s with
      inflight := s.inflight.erase i.key
      workers := replaceAt s.workers w [.emitting i r] } : Service).held := by
    have hsum : ((replaceAt s.workers w [.emitting i r]).map Worker.marks).sum + {i}
        = (s.workers.map Worker.marks).sum := by simpa [Worker.marks, Worker.item?] using hsum
    simp only [Service.held, ← hsum, ← Multiset.singleton_add]
    abel
  have hdis := h.distinct
  rw [hheld, Multiset.map_cons, Multiset.nodup_cons] at hdis
  have hkept : ∀ k ∈ s.inflight, k ≠ i.key → k ∈ s.inflight.erase i.key := fun k hk hne =>
    Finset.mem_erase_of_ne_of_mem hne hk
  refine
    { h with
      distinct := hdis.2
      marked := fun j hj => ?_
      knows := ?_
      draining_eq := h.draining_replace ht _
      ledger := ?_ }
  · refine hkept _ (h.marked j (hheld ▸ Multiset.mem_cons_of_mem hj)) fun heq => hdis.1 ?_
    exact heq ▸ Multiset.mem_map_of_mem _ hj
  · refine h.knows.mono (Finset.erase_subset _ _) (fun j todo heq => ?_) (fun k hk => ?_)
      fun hnil => absurd hnil (ne_nil_of_getElem? ht)
    · have hj := h.knows
      rw [show s.main = .enqueuing j todo from heq] at hj
      refine hkept _ hj.1 fun heq => hj.2 ?_
      rw [hheld, Multiset.map_cons, heq]
      exact Multiset.mem_cons_self _ _
    · rw [hheld, Multiset.map_cons]
      exact Multiset.mem_cons_of_mem hk
  · simp only [Worker.inHandler, add_zero] at hin
    dsimp only
    rw [hin]
    exact h.ledger

theorem Guarded.workerStep (h : Guarded s) {out : Except String String} {emits : Bool}
    (hs : s.workerStep w out emits = some s') : Guarded s' := by
  rw [Service.workerStep] at hs
  split at hs
  · cases hs
  case h_2 ht => exact Option.some.inj hs ▸ h.take ht
  case h_3 ht => exact Option.some.inj hs ▸ h.comeBack ht _
  case h_4 ht => exact Option.some.inj hs ▸ h.clear ht
  case h_5 ht =>
    split at hs
    · exact Option.some.inj hs ▸ h.unmarked ht rfl rfl rfl rfl _ s.rechecks
    · exact Option.some.inj hs ▸ h.unmarked ht rfl rfl rfl rfl s.finished s.rechecks
  case h_6 ht => exact Option.some.inj hs ▸ h.unmarked ht rfl rfl rfl rfl s.finished _

end Worker

end Steps

theorem Guarded.step {s s' : Service} {a : Act} (h : Guarded s) (hs : Handlers.step s a = some s') :
    Guarded s' := by
  cases a with
  | event e =>
    simp only [Handlers.step] at hs
    split at hs
    · exact h.handle ‹_› hs
    · cases hs
  | main => exact h.mainStep hs
  | worker w out emits => exact h.workerStep hs
  | write op =>
    cases hs
    exact { h with knows := h.knows.mono (subset_refl _) (fun i todo heq => by
      have := h.knows
      rw [show s.main = .enqueuing i todo from heq] at this
      exact this.1) (fun _ => id) id }

theorem guarded_of_reachable {s : Service} (h : system.Reachable s) : Guarded s :=
  h.invariant (fun _ h => h ▸ guarded_init) fun _ _ _ _ h _ hs => h.step hs

/-- What was queued is still queued, was taken by a worker, or was dropped. -/
def Queued (s : Service) : Prop := (s.enqueued : Multiset Item) = s.queue + s.started + s.dropped

theorem Queued.congr {s s' : Service} (h : Queued s) (hsame : SameRuns s s') : Queued s' := by
  rw [Queued, hsame.enqueued, hsame.queue, hsame.started, hsame.dropped]
  exact h

theorem Queued.step {s s' : Service} {a : Act} (h : Queued s) (hs : Handlers.step s a = some s') :
    Queued s' := by
  cases a with
  | event e =>
    obtain ⟨-, hs⟩ := Option.ite_none_right_eq_some.mp hs
    exact h.congr (sameRuns_handle hs).1
  | main =>
    rw [Handlers.step, Service.mainStep] at hs
    split at hs
    · cases hs
    case h_3 => exact Option.some.inj hs ▸ h.congr (sameRuns_evalRecord ..)
    case h_5 =>
      obtain rfl := Option.some.inj hs
      rw [Queued, ← Multiset.coe_add, ← Multiset.coe_add, h]
      abel
    case h_8 =>
      obtain rfl := Option.some.inj hs
      simp only [Queued, Service.dropIntermediate]
      rw [← Multiset.coe_add, h, queue_parts]
      abel
    case h_9 =>
      obtain ⟨-, hs⟩ := Option.ite_none_right_eq_some.mp hs
      exact Option.some.inj hs ▸ h
    all_goals exact Option.some.inj hs ▸ h
  | worker w out emits =>
    rw [Handlers.step, Service.workerStep] at hs
    split at hs
    · cases hs
    case h_2 =>
      obtain rfl := Option.some.inj hs
      rw [Service.take]
      split
      · exact h
      case h_2 item queue hq =>
        rw [Queued, hq, ← Multiset.cons_coe, ← Multiset.singleton_add] at h
        rw [Queued, ← Multiset.coe_add, h, Multiset.coe_singleton]
        abel
    case h_5 => split at hs <;> exact Option.some.inj hs ▸ h
    all_goals exact Option.some.inj hs ▸ h
  | write op => exact Option.some.inj hs ▸ h

theorem queued_of_reachable {s : Service} (h : system.Reachable s) : Queued s :=
  h.invariant (fun _ h => by rw [h]; rfl) fun _ _ _ _ h _ hs => h.step hs

/-! ## The workers come to an end -/

/-- A step of a worker. -/
def Act.ofWorker : Act → Bool
  | .worker .. => true
  | _ => false

theorem workerStep_work {s s' : Service} {w : ℕ} {out : Except String String} {emits : Bool}
    (hs : s.workerStep w out emits = some s') : s'.work < s.work := by
  have replaced {t : Worker} (ht : s.workers[w]? = some t) (t' : Worker) :
      ((replaceAt s.workers w [t']).map Worker.work).sum + t.work
        = (s.workers.map Worker.work).sum + t'.work := by
    simpa using sum_replaceAt Worker.work ht [t']
  rw [Service.workerStep] at hs
  split at hs
  · cases hs
  case h_2 ht =>
    cases hs
    rw [Service.take]
    split
    case h_1 hq =>
      have := sum_replaceAt Worker.work ht []
      simp only [Worker.work, List.map_nil, List.sum_nil, add_zero] at this
      simp only [Service.work]
      omega
    case h_2 item queue hq =>
      have := replaced ht (.running item)
      simp only [Worker.work] at this
      simp only [Service.work, hq, List.length_cons]
      omega
  case h_3 i ht =>
    cases hs
    have := replaced ht (.returned i (i.result out))
    simp only [Worker.work] at this
    simp only [Service.work]
    omega
  case h_4 i r ht =>
    cases hs
    have := replaced ht (.emitting i r)
    simp only [Worker.work] at this
    simp only [Service.work]
    omega
  case h_5 i r ht =>
    have hre := replaced ht (.rechecking i)
    have htop := replaced ht .top
    simp only [Worker.work] at hre htop
    split at hs <;> cases hs <;> simp only [Service.work] <;> omega
  case h_6 i ht =>
    cases hs
    have := replaced ht .top
    simp only [Worker.work] at this
    simp only [Service.work]
    omega

theorem run_ofWorker_length : ∀ {as : List Act} {s s' : Service}, (∀ a ∈ as, a.ofWorker = true) →
    system.run s as = some s' → as.length + s'.work ≤ s.work
  | [], s, s', _, hr => by rw [Option.some.inj hr, List.length_nil, zero_add]
  | a :: as, s, s', ha, hr => by
    rw [System.run, Option.bind_eq_some_iff] at hr
    obtain ⟨t, hs, hr⟩ := hr
    obtain ⟨hw, has⟩ := List.forall_mem_cons.mp ha
    have hlt : t.work < s.work := by
      cases a with
      | worker w out emits => exact workerStep_work hs
      | _ => cases hw
    have := run_ofWorker_length has hr
    rw [List.length_cons]
    omega

theorem workerStep_isSome {s : Service} (h : s.workers ≠ []) (out : Except String String)
    (emits : Bool) : (s.workerStep 0 out emits).isSome := by
  obtain ⟨t, ts, ht⟩ := List.exists_cons_of_ne_nil h
  rw [Service.workerStep, ht, List.getElem?_cons_zero]
  cases t <;> simp only [Option.isSome_some]
  split <;> rfl

/-! ## Exclusive, and none left behind -/

/-- `counted` holds at every moment: a worker counts from the critical section of `_pump` that
reserves it to the one in which it signs off. -/
structure ExclusiveRuns (s : Service) : Prop where
  exclusive : ((s.queue ++ s.running).map Item.key).Nodup
  counted : s.draining = s.workers.length + s.main.toStart
  counted_outside : (∀ n, s.main ≠ .starting n) → s.draining = s.workers.length
  bounded : s.draining ≤ maxHandlerWorkers
  /-- After a `_pump`, for as long as nothing new is queued. -/
  awake : s.main.filling = false → s.main.toStart = 0 → s.queue ≠ [] → s.workers ≠ []
  drops_intermediate : ∀ i ∈ s.dropped, i.final = false
  /-- Once `shutdown` is past `waitForDone`, every last run ever queued was run. -/
  final_run : s.main = .clearing →
    (s.enqueued.filter (·.final)).Perm (s.completed.filter (·.final))
  /-- `waitForDone` comes to its end: the workers can go on until all are gone, and not for ever. -/
  goes_on : s.workers ≠ [] → ∃ a : Act, a.ofWorker ∧ (step s a).isSome
  ends : ∀ as s', (∀ a ∈ as, a.ofWorker = true) → system.run s as = some s' → as.length ≤ s.work

theorem Guarded.final_run {s : Service} (h : Guarded s) (hm : s.main = .clearing) :
    (s.enqueued.filter (·.final)).Perm (s.completed.filter (·.final)) := by
  have hw : s.workers = [] := by
    have := h.knows
    rwa [hm] at this
  have hheld := h.held_eq_zero hw (by rw [hm]; rfl) (by rw [hm]; rfl)
  have hq : s.queue = [] := by simpa [Service.held, hw] using hheld
  have hdrop : s.dropped.filter (·.final) = [] :=
    List.filter_eq_nil_iff.mpr fun i hi => by simp [h.thinned i hi]
  have hledger := h.ledger
  rw [hq, hw, List.map_nil, List.sum_nil, Multiset.coe_nil, zero_add, zero_add, Multiset.coe_add,
    Multiset.coe_eq_coe] at hledger
  have := hledger.filter (·.final)
  rwa [List.filter_append, hdrop, List.append_nil] at this

/-- **Handler runs are exclusive and none is left behind**, in every reachable state. -/
theorem exclusiveRuns {s : Service} (hr : system.Reachable s) : ExclusiveRuns s := by
  have h := guarded_of_reachable hr
  refine
    { exclusive := ?_
      counted := h.draining_eq
      counted_outside := fun hm => ?_
      bounded := h.draining_le
      awake := fun hf hn hq hw => hq ?_
      drops_intermediate := h.thinned
      final_run := h.final_run
      goes_on := fun hw => ⟨.worker 0 (.ok "") true, rfl, workerStep_isSome hw _ _⟩
      ends := fun as s' ha hr => (Nat.le_add_right _ _).trans (run_ofWorker_length ha hr) }
  · have := h.distinct
    rwa [Service.held, ← Service.coe_running, Multiset.coe_add, Multiset.map_coe,
      Multiset.coe_nodup] at this
  · rw [h.draining_eq]
    cases hmain : s.main with
    | starting n => exact absurd hmain (hm n)
    | _ => simp [Main.toStart]
  · have := h.held_eq_zero hw hn hf
    simpa [Service.held, hw] using this

/-- The handler is removed and added again while it runs for a job, which then ends; the last run is
still queued when `shutdown` comes. -/
def replacedHandler : List Act :=
  [.write (.insertJobset 0 { jobsetId := "js", intendedCount := 1 }),
    .write (.addJob 0 { jobsetId := "js", jobKey := "a", generation := 0, state := .run }),
    .event (.addHandler "js" "collect" .none .none),
    .event (.tick "js" false), .main, .main, .main, .main, .main, .main,
    .worker 0 (.ok "") true,
    .event (.removeHandler "js" "collect"), .event (.addHandler "js" "collect" .none .none),
    .event (.tick "js" false), .main, .main, .main,
    .write (.transition 1 "js" "a" (some .done) none []),
    .worker 0 (.ok "") true, .worker 0 (.ok "") true,
    .event (.tick "js" false), .main, .main, .main, .main, .main, .main,
    .event .shutdown, .main,
    .worker 1 (.ok "") true, .worker 1 (.ok "") true, .worker 1 (.ok "") true,
    .worker 1 (.ok "") true, .worker 1 (.ok "") true, .worker 1 (.ok "") true,
    .worker 0 (.ok "") true, .worker 0 (.ok "") true, .worker 0 (.ok "") true, .main]

theorem exclusiveRuns_replacedHandler : ∃ s, system.run {} replacedHandler = some s ∧
    s.main = .clearing ∧ s.completed.map (fun i => (i.handler, i.final)) = [(0, false), (1, true)] ∧
    ExclusiveRuns s := by
  have hrun : (system.run {} replacedHandler).bind (fun s =>
      if s.main = .clearing ∧
          s.completed.map (fun i => (i.handler, i.final)) = [(0, false), (1, true)]
        then some () else none) = some () := by decide +kernel
  obtain ⟨s, hs, hrest⟩ := Option.bind_eq_some_iff.mp hrun
  obtain ⟨⟨hmain, hdone⟩, -⟩ := Option.ite_none_right_eq_some.mp hrest
  exact ⟨s, hs, hmain, hdone, exclusiveRuns (System.reachable_of_run (.init rfl) hs)⟩

end Handlers

end Lsfmgr
