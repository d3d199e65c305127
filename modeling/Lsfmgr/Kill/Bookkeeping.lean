import Mathlib
import Lsfmgr.Command.Query
import Lsfmgr.Kill.Refresh

/-!
# Kill/Bookkeeping — what a kill has written and reports when it ends

Until its marks a kill reads, and refreshes what its status queries read; whatever it raises it
raises there.  So it either marks every record it may mark and reports what `bkill` has confirmed,
or it marks none and reports nothing but the exception.
-/

namespace Lsfmgr.Kill

open Machinery Command

variable {w : World} {policy : Policy} {a : Amid InMemoryStore Notes}

section Reading

variable {py : Python} {task : Task} {start : InMemoryStore} {notes : Notes} {α : Type}

/-- Why the records of a kill cannot be read: its jobset is gone, or a target is no number for
`int`. -/
def PoolLost (py : Python) (task : Task) (jobIds : List Text)
    (log : List (Call InMemoryStore)) : Prop :=
  (task.jobsetId ≠ "" ∧ ∃ c ∈ log, ∃ e, c.before.getJobs task.jobsetId = .error e) ∨
    (task.jobsetId = "" ∧ ∃ t ∈ jobIds, ∃ e, targetParentId py t = .error e)

theorem recordPool_idle (hw : w.Lawful) (jobIds : List Text) :
    Prog.Triple (Idle w policy start notes) (recordPool py w task jobIds)
      (fun _ => Idle w policy start notes)
      (fun _ a => Idle w policy start notes a ∧ PoolLost py task jobIds a.log) := by
  rw [recordPool]
  split
  case isTrue hjobset =>
    refine (read_idle hw _).mono (fun _ h => h) (fun _ _ h => h.1) fun _ _ h => ?_
    obtain ⟨hidle, c, hc, err, herr, -⟩ := h
    exact ⟨hidle, .inl ⟨hjobset, c, hc, err, herr⟩⟩
  case isFalse hglobal =>
    refine Prog.Triple.bind (Q := fun _ => Idle w policy start notes)
      ((ofExcept_idle _).mono (fun _ h => h) (fun _ _ h => h.1) fun e a h =>
        ⟨h.1, .inr ⟨of_not_not hglobal, ?_⟩⟩)
      fun pids => (read_idle hw _).mono (fun _ h => h) (fun _ _ h => h.1) fun _ _ h => ?_
    · rcases hpids : jobIds.mapM (targetParentId py) with e' | pids
      · obtain ⟨t, ht, hte⟩ := exists_of_mapM_error hpids
        exact ⟨t, ht, _, hte⟩
      · rw [hpids] at h
        cases h.2
    · obtain ⟨-, c, -, e, he, -⟩ := h
      cases he

/-- **Why a kill whose `bkill` has returned may fail**: a query raises what is no `LsfmgrError`, the
jobset goes between the query and the look at its records, or `int` does not take the digits of a
target. -/
inductive Failed (py : Python) (w : World) (task : Task) (targets : Finset Text)
    (log : List (Call InMemoryStore)) : Prop
  | query {n : ℕ} {ids : List ℕ} {e : Failure} : w.queryIds n ids = .error e →
      e.isLsfmgrError = false →
      Failed py w task targets log
  | jobset {c : Call InMemoryStore} {e : StoreError} : task.jobsetId ≠ "" → c ∈ log →
      c.before.getJobs task.jobsetId = .error e → Failed py w task targets log
  | target {t : Text} {e : PyError} : t ∈ targets → classifyTarget py t = .error e →
      Failed py w task targets log

theorem verifyInJobset_idle (hw : w.Lawful) (targets : Finset Text) (cls : Classes)
    (hjobset : task.jobsetId ≠ "") :
    Prog.Triple (Idle w policy start notes) (verifyInJobset w policy task cls)
      (fun _ => Idle w policy start notes)
      (fun _ a => Idle w policy start notes a ∧ Failed py w task targets a.log) := by
  rw [verifyInJobset]
  refine Prog.Triple.bind
    ((catching_query hw _).mono (fun _ h => h) (fun _ _ h => h) fun e a h => ?_) fun qr => ?_
  · obtain ⟨ha, he, n, ids, hn⟩ := h
    exact ⟨ha, .query hn he⟩
  · cases qr with
    | none => exact Prog.Triple.ret fun _ h => h
    | some qr =>
      refine Prog.Triple.bind (Q := fun _ => Idle w policy start notes)
        ((read_idle hw _).mono (fun _ h => h) (fun _ _ h => h.1) fun _ _ h => ?_)
        fun jobs => Prog.Triple.ret fun _ h => h
      obtain ⟨ha, c, hc, e, he, -⟩ := h
      exact ⟨ha, .jobset hjobset hc he⟩

theorem verifyDirect_idle (hw : w.Lawful) (targets : Finset Text) (cls : Classes) :
    Prog.Triple (Idle w policy start notes) (verifyDirect w cls)
      (fun _ => Idle w policy start notes)
      (fun _ a => Idle w policy start notes a ∧ Failed py w task targets a.log) := by
  rw [verifyDirect]
  split
  case isTrue => exact Prog.Triple.ret fun _ h => h
  case isFalse =>
    refine Prog.Triple.bind
      ((catching_ask hw _).mono (fun _ h => h) (fun _ _ h => h) fun e a h => ?_) fun x => ?_
    · obtain ⟨ha, he, n, hn⟩ := h
      exact ⟨ha, .query hn he⟩
    · rcases x with - | x
      · exact Prog.Triple.ret fun _ h => h
      · exact Prog.Triple.ret fun _ h => h

theorem pool_caught (hw : w.Lawful) (jobIds : List Text)
    {E : Failure → Amid InMemoryStore Notes → Prop} :
    Prog.Triple (Idle w policy start notes)
      (Amid.catching (fun _ => true) (recordPool py w task jobIds))
      (fun x a => Idle w policy start notes a ∧ (x = none → PoolLost py task jobIds a.log)) E :=
  (recordPool_idle hw jobIds).catching (fun _ _ h => ⟨h, by simp⟩)
    (fun _ _ _ h => ⟨h.1, fun _ => h.2⟩)
    fun _ _ he => by cases he

theorem verifyGlobal_idle (hw : w.Lawful) (targets : Finset Text)
    (jobIds : List Text) (cls : Classes) :
    Prog.Triple (Idle w policy start notes) (verifyGlobal py w task jobIds cls)
      (fun _ => Idle w policy start notes)
      (fun _ a => Idle w policy start notes a ∧ Failed py w task targets a.log) := by
  rw [verifyGlobal]
  refine Prog.Triple.bind (verifyDirect_idle hw targets cls) fun pool => ?_
  cases pool with
  | none => exact Prog.Triple.ret fun _ h => h
  | some pool =>
    dsimp only
    split
    case isTrue => exact Prog.Triple.ret fun _ h => h
    case isFalse =>
      refine Prog.Triple.bind (Q := fun _ => Idle w policy start notes)
        ((pool_caught hw jobIds).mono (fun _ h => h) (fun _ _ h => h.1) fun _ _ h => h)
          fun recs => ?_
      exact Prog.Triple.ite (fun _ => Prog.Triple.ret fun _ h => h) fun _ =>
        Prog.Triple.ret fun _ h => h

theorem verify_idle (hw : w.Lawful) (jobIds : List Text) (targets : Finset Text) :
    Prog.Triple (Idle w policy start notes) (verify py w policy task jobIds targets)
      (fun _ => Idle w policy start notes)
      (fun _ a => Idle w policy start notes a ∧ Failed py w task targets a.log) := by
  rw [verify]
  split
  case isTrue => exact Prog.Triple.ret fun _ h => h
  case isFalse =>
    refine Prog.Triple.bind (Q := fun _ => Idle w policy start notes)
      ((ofExcept_idle _).mono (fun _ h => h) (fun _ _ h => h.1) fun e a h => ⟨h.1, ?_⟩) fun cls =>
      Prog.Triple.ite (fun hjobset => verifyInJobset_idle hw targets cls hjobset)
        fun _ => verifyGlobal_idle hw targets jobIds cls
    rcases hcls : classifyTargets py (sorted targets) with e' | cls
    · have hnot : ¬ (classifyTargets py (sorted targets)).isOk = true := by
        simp [hcls, Except.isOk, Except.toBool]
      rw [isOk_classifyTargets] at hnot
      push Not at hnot
      obtain ⟨t, ht, hne⟩ := hnot
      rcases hx : classifyTarget py t with e'' | sel
      · exact .target ((Finset.mem_sort _).mp ht) hx
      · simp [hx, Except.isOk, Except.toBool] at hne
    · rw [hcls] at h
      cases h.2

theorem refreshTracked_idle (hw : w.Lawful) (targets : Finset Text) (jobIds : List Text) :
    Prog.Triple (Idle w policy start notes) (refreshTracked py w policy task jobIds)
      (fun _ => Idle w policy start notes)
      (fun _ a => Idle w policy start notes a ∧ Failed py w task targets a.log) := by
  rw [refreshTracked]
  refine Prog.Triple.bind (Q := fun _ => Idle w policy start notes)
    ((pool_caught hw jobIds).mono (fun _ h => h) (fun _ _ h => h.1) fun _ _ h => h) fun recs => ?_
  cases recs with
  | none => exact Prog.Triple.ret fun _ h => h
  | some recs =>
    refine Prog.Triple.bind (Q := fun _ => Idle w policy start notes) ?_ fun changed =>
      Prog.Triple.ret fun _ h => h
    refine Prog.Triple.each (I := fun _ => Idle w policy start notes) (fun jobsetId _ => ?_) _
    refine Prog.Triple.bind
      ((catching_query hw _).mono (fun _ h => h) (fun _ _ h => h) fun e a h => ?_)
      fun qr => Prog.Triple.ret fun _ h => h
    obtain ⟨ha, he, n, ids, hn⟩ := h
    exact ⟨ha, .query hn he⟩

theorem survivors_idle (hw : w.Lawful) (plan : Plan) (jobIds : List Text) (c : KillConfirmed) :
    Prog.Triple (Idle w policy start notes) (survivors py w policy task plan jobIds c)
      (fun _ => Idle w policy start notes)
      (fun _ a => Idle w policy start notes a ∧ Failed py w task plan.targets.toFinset a.log) := by
  rw [survivors]
  refine Prog.Triple.ite (fun _ => ?_) fun _ => Prog.Triple.ret fun _ h => h
  refine Prog.Triple.bind (verify_idle hw jobIds _) fun v => ?_
  refine Prog.Triple.ite (fun _ => ?_) fun _ => Prog.Triple.ret fun _ h => h
  exact Prog.Triple.bind (refreshTracked_idle hw _ jobIds) fun changed =>
    Prog.Triple.ret fun _ h => h

end Reading

/-! ## Plan and confirmation -/

section Stages

variable {py : Python} {task : Task} {start : InMemoryStore} {notes : Notes}

theorem jobIds_idle (hw : w.Lawful) :
    Prog.Triple (Idle w policy start notes) (jobIds py w task) (fun _ => Idle w policy start notes)
      (fun _ => Idle w policy start notes) := by
  rw [jobIds]
  cases task.aim with
  | jobset => exact Prog.Triple.ret fun _ h => h
  | ids jobIds => exact Prog.Triple.ret fun _ h => h
  | keys jobKeys =>
    refine Prog.Triple.bind (Q := fun _ => Idle w policy start notes) ?_ fun _ =>
      Prog.Triple.ret fun _ h => h
    refine Prog.Triple.bind (Q := fun _ => Idle w policy start notes)
      ((read_idle hw _).mono (fun _ h => h) (fun _ _ h => h.1) fun _ _ h => h.1) fun pool => ?_
    exact (orValueError_idle _).mono (fun _ h => h) (fun _ _ h => h.1) fun _ _ h => h.1

/-- Where no records are read for the plan, its targets are the ids that were given. -/
theorem makePlan_idle (hw : w.Lawful) (ids : Option (List Text)) :
    Prog.Triple (Idle w policy start notes) (makePlan py w task ids)
      (fun plan a => Idle w policy start notes a ∧ (plan.recs = none → ids.getD [] = plan.targets))
      (fun _ => Idle w policy start notes) := by
  cases ids with
  | some ids => exact Prog.Triple.ret fun _ h => ⟨h, fun _ => rfl⟩
  | none =>
    rw [makePlan]
    have hread {α : Type} (f : InMemoryStore → Except StoreError α) :
        Prog.Triple (Idle w policy start notes) (read w f) (fun _ => Idle w policy start notes)
          (fun _ => Idle w policy start notes) :=
      (read_idle hw f).mono (fun _ h => h) (fun _ _ h => h.1) fun _ _ h => h.1
    refine Prog.Triple.bind (hread _) fun _ => Prog.Triple.bind (hread _) fun jobs => ?_
    refine Prog.Triple.bind (Q := fun _ => Idle w policy start notes)
      ((orValueError_idle _).mono (fun _ h => h) (fun _ _ h => h.1) fun _ _ h => h.1)
        fun targets => ?_
    exact Prog.Triple.ret fun _ h => ⟨h, fun hnone => by cases hnone⟩

/-- The confirmation is of the plan's targets, by what LSF answers. -/
structure ByAnswers (py : Python) (w : World) (policy : Policy) (plan : Plan)
    (c : KillConfirmed) : Prop where
  accepted : ∀ t, t ∈ c.accepted ↔
    (∃ round ∈ c.rounds, t ∈ round.admitted) ∧ ∃ round ∈ c.rounds, t ∈ round.settled
  happened : ∀ i round, c.rounds[i]? = some round →
    Happened (bkillOf py policy.command w.order w.bkill) (requeryOf py w.requery)
      plan.targets.toFinset
      c.rounds i round

theorem confirm_idle (plan : Plan) (errors : List Text) :
    Prog.Triple (Idle w policy start notes) (confirm py w policy plan errors)
      (fun c a => Idle w policy start notes a ∧ ByAnswers py w policy plan c)
          (fun _ => Idle w policy start notes) := by
  rw [confirm]
  refine Prog.Triple.ite (fun _ => Prog.Triple.ret fun _ h => ⟨h, by simp, by simp⟩) fun _ => ?_
  refine (ofExcept_idle _).mono (fun _ h => h) (fun c a h => ⟨h.1, ?_⟩) fun _ _ h => h.1
  obtain ⟨-, heq⟩ := h
  rcases hc :
    killConfirm (bkillOf py policy.command w.order w.bkill) (requeryOf py w.requery) w.repr
      policy.killMaxRetry plan.targets errors with e | c'
  · rw [hc] at heq
    cases heq
  · rw [hc] at heq
    obtain rfl : c' = c := Except.ok.inj heq
    obtain ⟨p, hp, -, -, -, rfl⟩ := killConfirm_eq hc
    exact ⟨fun t => by rw [Finset.mem_inter, hp.accepted, hp.resolved], hp.happened⟩

end Stages

/-! ## The marks -/

/-- **The kill may mark the record**: it is in the pool, its target was accepted in some round and
resolved in some round, and it was not seen alive. -/
def Notes.Entitles (notes : Notes) (r : JobRecord) : Prop :=
  ∃ plan c alive pool t, notes.plan = some plan ∧ notes.confirmed = some c ∧
    notes.alive = some alive ∧
    notes.pool = some pool ∧ r ∈ pool ∧ plan.targetOf r = some t ∧
    (∃ round ∈ c.rounds, t ∈ round.admitted) ∧
      (∃ round ∈ c.rounds, t ∈ round.settled) ∧ keyOf r ∉ alive

/-- What comes before the marks, and then a turn for each record the kill may mark. -/
structure MarkedAll (w : World) (policy : Policy) (start : InMemoryStore)
    (a : Amid InMemoryStore Notes) :
    Prop where
  chained : Chained w.others start a.log a.shared
  turns : ∃ reads killed turns, a.log = reads ++ List.flatten turns ∧ Reads w policy.monitor reads ∧
    List.Forall₂ (fun r calls => ∃ new, Turn r policy.optimistic calls new) killed turns ∧
    ∀ r, r ∈ killed ↔ a.notes.Entitles r

/-- A record of the pool whose id `str` does not take. -/
def Unwritable (plan : Plan) (notes : Notes) : Prop :=
  ∃ pool, notes.pool = some pool ∧ ∃ r ∈ pool, r.jobId.isSome = true ∧ plan.targetOf r = none

section Marks

variable {py : Python} {task : Task} {start : InMemoryStore}

theorem MarkedAll.of_idle {notes : Notes} (h : Idle w policy start notes a)
    (hnone : ∀ r, ¬ notes.Entitles r) :
    MarkedAll w policy start a :=
  ⟨h.chained, a.log, [], [], by simp, h.reads, .nil, fun r => by simp [h.notes, hnone]⟩

variable {plan : Plan} {c : KillConfirmed} {alive : List (String × String)}

theorem entitles_iff (hc : ByAnswers py w policy plan c) {pool : List JobRecord} {r : JobRecord} :
    Notes.Entitles ⟨some plan, some c, some alive, some pool⟩ r ↔
      r ∈ pool ∧ (plan.targetOf r).any (· ∈ c.accepted) = true ∧ keyOf r ∉ alive := by
  simp only [Notes.Entitles, Option.some.injEq, exists_and_left, exists_eq_left',
    Option.any_eq_true, decide_eq_true_eq, hc.accepted]
  constructor
  · rintro ⟨hr, t, ht, hadmitted, hsettled, halive⟩
    exact ⟨hr, ⟨t, ht, hadmitted, hsettled⟩, halive⟩
  · rintro ⟨hr, ⟨t, ht, hadmitted, hsettled⟩, halive⟩
    exact ⟨hr, t, ht, hadmitted, hsettled, halive⟩

theorem not_entitles_of_pool {notes : Notes} (h : notes.pool = none) (r : JobRecord) :
    ¬ notes.Entitles r := by
  rintro ⟨_, _, _, pool, _, _, _, _, hpool, _⟩
  rw [h] at hpool
  cases hpool

/-- **The marking**: it marks all it may, unless the pool cannot be read; and it raises before it
marks. -/
theorem markKilled_marks (hw : w.Lawful) (hc : ByAnswers py w policy plan c) (ids : List Text)
    (hids : plan.recs = none → ids = plan.targets) :
    Prog.Triple (Idle w policy start ⟨some plan, some c, some alive, none⟩)
      (markKilled py w policy task plan ids c.accepted alive)
      (fun _ a => MarkedAll w policy start a ∧
        (∃ pool, a.notes = ⟨some plan, some c, some alive, pool⟩) ∧
        (a.notes.pool = none → c.accepted = ∅ ∨ plan.recs = none ∧
          PoolLost py task plan.targets a.log))
      (fun _ a => ∃ pool, Idle w policy start ⟨some plan, some c, some alive, pool⟩ a ∧
          Unwritable plan a.notes) := by
  rw [markKilled]
  refine Prog.Triple.ite (fun hnone => Prog.Triple.ret fun a h => ?_) fun _ => ?_
  · exact ⟨.of_idle h (not_entitles_of_pool rfl), ⟨_, h.notes⟩, fun _ => .inl hnone⟩
  refine Prog.Triple.bind
    (Q := fun recs a => Idle w policy start ⟨some plan, some c, some alive, none⟩ a ∧
    (recs = none → plan.recs = none ∧ PoolLost py task plan.targets a.log)) ?_ fun recs => ?_
  · rw [markPool]
    rcases hrecs : plan.recs with - | recs
    · exact (pool_caught hw ids).mono (fun _ h => h)
        (fun _ _ h => ⟨h.1, fun hnone => ⟨rfl, hids hrecs ▸ h.2 hnone⟩⟩) fun _ _ h => h
    · exact Prog.Triple.ret fun _ h => ⟨h, fun hnone => by cases hnone⟩
  cases recs with
  | none =>
    refine Prog.Triple.ret fun a h => ?_
    exact ⟨.of_idle h.1 (not_entitles_of_pool rfl), ⟨_, h.1.notes⟩, fun _ => .inr (h.2 rfl)⟩
  | some pool =>
    refine Prog.Triple.bind
      (Q := fun _ => Idle w policy start ⟨some plan, some c, some alive, some pool⟩)
      (Prog.Triple.jot fun a h => ⟨h.1.chained, h.1.reads, h.1.placed, by rw [h.1.notes]⟩)
        fun _ => ?_
    refine Prog.Triple.bind
      (Q := fun killed a => Idle w policy start ⟨some plan, some c, some alive, some pool⟩ a ∧
        ∀ r, r ∈ killed ↔ Notes.Entitles ⟨some plan, some c, some alive, some pool⟩ r) ?_
          fun killed => ?_
    · refine (orValueError_idle _).mono (fun _ h => h) (fun killed a h => ⟨h.1, fun r => ?_⟩)
        fun _ a h => ⟨_, h.1, ?_⟩
      · obtain ⟨-, hkilled⟩ := h
        split at hkilled
        case isTrue => cases hkilled
        case isFalse =>
          obtain rfl := Option.some.inj hkilled
          rw [entitles_iff hc, List.mem_filter]
          simp
      · obtain ⟨ha, hraised⟩ := h
        split at hraised
        case isTrue hlong =>
          obtain ⟨r, hr, hid, ht⟩ := hlong
          exact ⟨pool, by rw [ha.notes], r, hr, hid, ht⟩
        case isFalse => cases hraised
    · intro a h
      obtain ⟨hidle, hkilled⟩ := h
      obtain ⟨turns, xs, after, hturns, hadded, heq⟩ := each_turns policy hw killed hidle.placed
      rw [Prog.bind_ok heq]
      refine ⟨fun _ a' hret => ?_, fun _ a' hret => by cases hret⟩
      obtain ⟨-, rfl⟩ := Prod.mk.inj hret
      exact ⟨⟨hadded.chained _ hidle.chained, a.log, killed, turns, rfl, hidle.reads, hturns,
        by rw [hidle.notes]; exact hkilled⟩, ⟨some pool, hidle.notes⟩, fun hnone => by
          rw [hidle.notes] at hnone; cases hnone⟩

/-- The report repeats what was planned and confirmed. -/
structure Repeats (report : KillReport) (plan : Plan) (c : KillConfirmed) : Prop where
  requested : report.requested = plan.requested
  unconfirmed : report.unconfirmed = c.unconfirmed
  killRetries : report.killRetries = c.retries
  commandCalls : report.commandCalls = c.calls
  errors : report.errors = c.errors

/-- **How a kill ends**: with a report once it has marked, or by an exception before it marks. -/
theorem runKill_ends (py : Python) (policy : Policy) (task : Task) (hw : w.Lawful) :
    Prog.Triple (Idle w policy start {}) (runKill py w policy task)
      (fun report a => ∃ plan c, a.notes.plan = some plan ∧ a.notes.confirmed = some c ∧
        ByAnswers py w policy plan c ∧ Repeats report plan c ∧ MarkedAll w policy start a ∧
        (a.notes.pool = none → c.accepted = ∅ ∨ plan.recs = none ∧
          PoolLost py task plan.targets a.log))
      (fun _ a => Chained w.others start a.log a.shared ∧ Reads w policy.monitor a.log ∧
        ∀ c, a.notes.confirmed = some c → ∃ plan, a.notes.plan = some plan ∧
          ByAnswers py w policy plan c ∧
          (Failed py w task plan.targets.toFinset a.log ∨ Unwritable plan a.notes)) := by
  have early {notes : Notes} (hnone : notes.confirmed = none) :
      ∀ (_ : Failure) a, Idle w policy start notes a → Chained w.others start a.log a.shared ∧
        Reads w policy.monitor a.log ∧ ∀ c, a.notes.confirmed = some c →
          ∃ plan, a.notes.plan = some plan ∧
          ByAnswers py w policy plan c ∧
          (Failed py w task plan.targets.toFinset a.log ∨ Unwritable plan a.notes) :=
            fun _ a h => by
    refine ⟨h.chained, h.reads, fun c hc => ?_⟩
    rw [h.notes, hnone] at hc
    cases hc
  rw [runKill]
  refine Prog.Triple.bind ((jobIds_idle hw).mono (fun _ h => h) (fun _ _ h => h) (early rfl))
    fun ids => ?_
  refine Prog.Triple.bind ((makePlan_idle hw ids).mono (fun _ h => h) (fun _ _ h => h) (early rfl))
    fun plan => ?_
  refine Prog.Triple.assuming (fun _ h => h.2) fun hids => ?_
  refine Prog.Triple.bind (Q := fun _ => Idle w policy start ⟨some plan, none, none, none⟩)
    (Prog.Triple.jot fun a h => ⟨h.1.chained, h.1.reads, h.1.placed, by rw [h.1.notes]⟩) fun _ => ?_
  refine Prog.Triple.bind ((confirm_idle plan _).mono (fun _ h => h) (fun _ _ h => h) (early rfl))
    fun c => ?_
  refine Prog.Triple.assuming (fun _ h => h.2) fun hc => ?_
  refine Prog.Triple.bind (Q := fun _ => Idle w policy start ⟨some plan, some c, none, none⟩)
    (Prog.Triple.jot fun a h => ⟨h.1.chained, h.1.reads, h.1.placed, by rw [h.1.notes]⟩) fun _ => ?_
  refine Prog.Triple.bind
    ((survivors_idle hw plan _ c).mono (fun _ h => h) (fun _ _ h => h) fun _ a h => ?_)
    fun v => ?_
  · refine ⟨h.1.chained, h.1.reads, fun c' hc' => ?_⟩
    rw [h.1.notes] at hc' ⊢
    obtain rfl := Option.some.inj hc'
    exact ⟨plan, rfl, hc, .inl h.2⟩
  refine Prog.Triple.bind
    (Q := fun _ => Idle w policy start ⟨some plan, some c, some v.alive, none⟩)
    (Prog.Triple.jot fun a h => ⟨h.chained, h.reads, h.placed, by rw [h.notes]⟩) fun _ => ?_
  refine Prog.Triple.bind ((markKilled_marks hw hc _ hids).mono (fun _ h => h) (fun _ _ h => h)
    fun _ a h => ?_) fun changed => Prog.Triple.ret fun a h => ?_
  · obtain ⟨pool, hidle, hlong⟩ := h
    refine ⟨hidle.chained, hidle.reads, fun c' hc' => ?_⟩
    rw [hidle.notes] at hc' hlong ⊢
    obtain rfl := Option.some.inj hc'
    exact ⟨plan, rfl, hc, .inr hlong⟩
  · obtain ⟨hmarked, ⟨pool, hnotes⟩, hpool⟩ := h
    exact ⟨plan, c, by rw [hnotes], by rw [hnotes], hc, ⟨rfl, rfl, rfl, rfl, rfl⟩, hmarked, hpool⟩

end Marks

/-- **A call writes nothing, writes what a status query of the kill has found, or marks one record**
that may be marked, and that still is the same job when it is written.  `EXIT` is only set under the
optimistic policy and to a record on LSF. -/
def OnlyMarks (w : World) (policy : Policy) (a : Amid InMemoryStore Notes) : Prop :=
  ∀ before call, before ++ [call] <+: a.log → call.Quiet ∨ Refresh w policy.monitor before call ∨
    ∃ r exit old new, a.notes.Entitles r ∧ call.before.job? r.jobsetId r.jobKey = some old ∧
      sameJob r old = true ∧ (exit = true → policy.optimistic = true ∧ old.state.isOnLsf = true) ∧
      Mark exit old new ∧ call.before.Wrote r.jobsetId r.jobKey (some new) call.after

/-- A prefix that ends in `x` ends in the first of two lists, or `x` is of the second. -/
theorem prefix_or_mem {α : Type} {before l₁ l₂ : List α} {x : α} (h : before ++ [x] <+: l₁ ++ l₂) :
    before ++ [x] <+: l₁ ∨ x ∈ l₂ := by
  rcases List.prefix_or_prefix_of_prefix h (List.prefix_append l₁ l₂) with hpre | hpre
  · exact .inl hpre
  rcases List.prefix_concat_iff.mp hpre with heq | ⟨mid, rfl⟩
  · exact .inl (heq ▸ List.prefix_refl _)
  · rw [List.append_assoc, List.prefix_append_right_inj] at h
    exact .inr (h.subset (by simp))

/-! ## The two results -/

section Results

variable {start : InMemoryStore}

/-- The two ends of a kill. -/
theorem run_ends (py : Python) (policy : Policy) (task : Task) (hw : w.Lawful) (hp : start.Placed) :
    let ended := run py w policy task start
    (∃ plan c, ended.2.2.notes.plan = some plan ∧ ended.2.2.notes.confirmed = some c ∧
      ByAnswers py w policy plan c ∧ ended.2.1 = none ∧ Repeats ended.1 plan c ∧
      MarkedAll w policy start ended.2.2 ∧
      (ended.2.2.notes.pool = none →
        c.accepted = ∅ ∨ plan.recs = none ∧ PoolLost py task plan.targets ended.2.2.log)) ∨
    (ended.2.1.isSome = true ∧ ended.1.requested = 0 ∧
      Chained w.others start ended.2.2.log ended.2.2.shared ∧
      Reads w policy.monitor ended.2.2.log ∧
      ∀ c, ended.2.2.notes.confirmed = some c → ∃ plan, ended.2.2.notes.plan = some plan ∧
        ByAnswers py w policy plan c ∧
        (Failed py w task plan.targets.toFinset ended.2.2.log ∨
            Unwritable plan ended.2.2.notes)) := by
  have hidle : Idle w policy start {} ⟨start, [], {}⟩ := ⟨.nil, .nil, hp, rfl⟩
  obtain ⟨hok, herror⟩ := runKill_ends py policy task hw _ hidle
  rcases hrun : runKill py w policy task ⟨start, [], {}⟩ with ⟨e | report, a⟩
  · simp only [run, hrun]
    exact .inr ⟨rfl, rfl, herror e a hrun⟩
  · simp only [run, hrun]
    obtain ⟨plan, c, hplan, hconfirmed, hc, hrest⟩ := hok report a hrun
    exact .inl ⟨plan, c, hplan, hconfirmed, hc, trivial, hrest⟩

/-- **A kill writes only marks, of records it may mark, and what its status queries find.**
Whatever LSF answers, and whatever the others do between any two of its calls, the store becomes
what they and the logged calls make of it, the rounds record what LSF answered, and no call of the
kill does more than refresh records that are as a query has read them, or mark a record whose target
was accepted in some round and resolved in some round, and which was not seen alive. -/
theorem marking_sound (py : Python) (policy : Policy) (task : Task) (hw : w.Lawful)
    (hp : start.Placed) :
    let a := (run py w policy task start).2.2
    Chained w.others start a.log a.shared ∧
    (∀ c, a.notes.confirmed = some c → ∃ plan, a.notes.plan = some plan ∧
      ByAnswers py w policy plan c) ∧
    OnlyMarks w policy a := by
  dsimp only
  obtain ⟨plan, c, hplan, hconfirmed, hc, -, -, hmarked, -⟩ | ⟨-, -, hchained, hreads, hcause⟩ :=
    run_ends py policy task hw hp
  · refine ⟨hmarked.chained, fun c' hc' => ⟨plan, hplan, ?_⟩, fun before call hcall => ?_⟩
    · rw [hconfirmed] at hc'
      obtain rfl := Option.some.inj hc'
      exact hc
    obtain ⟨reads, killed, turns, hlog, hreads, hturns, hkilled⟩ := hmarked.turns
    rw [hlog] at hcall
    rcases prefix_or_mem hcall with hcall | hcall
    · exact (hreads before call hcall).imp id .inl
    · obtain ⟨calls, hcalls, hcall⟩ := List.mem_flatten.mp hcall
      obtain ⟨r, hr, new, hturn⟩ : ∃ r ∈ killed, ∃ new, Turn r policy.optimistic calls new := by
        obtain ⟨i, hi, rfl⟩ := List.mem_iff_getElem.mp hcalls
        exact ⟨_, List.getElem_mem (hturns.length_eq ▸ hi), hturns.get (hturns.length_eq ▸ hi) hi⟩
      rcases hturn.quiet_or_marked call hcall with hq |
        ⟨exit, old, new, hopt, hj, hmay, hmark, hwrote⟩
      · exact .inl hq
      · rw [mayMark, Bool.and_eq_true] at hmay
        refine .inr
          (.inr ⟨r, exit, old, new, (hkilled r).mp hr, hj, hmay.1, fun hexit => ⟨hopt hexit, ?_⟩,
          hmark, hwrote⟩)
        simpa [hexit] using hmay.2
  · refine ⟨hchained, fun c hc => ?_, fun before call hcall =>
      (hreads before call hcall).imp id .inl⟩
    obtain ⟨plan, hplan, hby, -⟩ := hcause c hc
    exact ⟨plan, hplan, hby⟩

/-- `bkill` ends `7[1]`, and the rows say that `7[2]` has ended, too. -/
def endsFirst (others : ℕ → InMemoryStore → InMemoryStore) : World where
  others := others
  clock _ := 0
  bkill := always "Job <7[1]> is being terminated"
  order _ chunks := chunks
  requery _ _ := none
  queryIds _ _ := .ok ([⟨7, some 1, .exit, some 130, none, none, none, none, none⟩,
    ⟨7, some 2, .done, some 0, none, none, none, none, none⟩], ∅)
  streaks _ _ := ∅
  repr _ := []
  describe _ := []

/-- Every configuration at its default. -/
def byDefault : Policy := ⟨plainSite.cfg, ⟨3, false, 0, true, false⟩, 0, true⟩

/-- The first element is killed, and looked at. -/
def killFirst : Task := ⟨"js", .ids ["7[1]".toList], true, none⟩

/-- Both elements run. -/
def running : InMemoryStore := InMemoryStore.afterOps
  [.insertJobset 0 { jobsetId := "js", intendedCount := 2 },
    .addJob 0
      { jobsetId := "js", jobKey := "a", state := .run, jobId := some 7, arrayIndex := some 1,
        generation := 1 },
    .addJob 0
      { jobsetId := "js", jobKey := "b", state := .run, jobId := some 7, arrayIndex := some 2,
        generation := 2 }]

theorem placed_running : running.Placed := (InMemoryStore.represented_afterOps _).placed

/-- What is seen of a record. -/
def stateAndFlag (s : InMemoryStore) (k : String) : Option (JobState × Bool) :=
  (s.job? "js" k).map fun r => (r.state, r.killed)

/-- The query writes that both have ended, and the one that was killed is marked. -/
theorem marking_sound_running :
    let a := (run Python.ascii (endsFirst fun _ s => s) byDefault killFirst running).2.2
    stateAndFlag a.shared "a" = some (.exit, true) ∧ stateAndFlag a.shared "b" =
      some (.done, false) ∧
      OnlyMarks (endsFirst fun _ s => s) byDefault a :=
  ⟨by decide +kernel, by decide +kernel,
    (marking_sound Python.ascii byDefault killFirst (fun _ _ h => h) placed_running).2.2⟩

/-- **Once `bkill` has returned, a kill keeps all of it or none.**  Either it reports the numbers of
its plan and of its confirmation, and gives every record it may mark a turn (the pool is only unread
if nothing is accepted, the jobset is gone, or `int` does not take a target); or it reports an
exception and nothing else, and has marked nothing, though its status queries may have written what
they found: then a query raised what is no `LsfmgrError`, the jobset went before its records were
looked at, or an id or a target has digits that `str` or `int` does not take. -/
theorem bookkeeping_kept (py : Python) (policy : Policy) (task : Task) (hw : w.Lawful)
    (hp : start.Placed) :
    let ended := run py w policy task start
    ∀ c, ended.2.2.notes.confirmed = some c → ∃ plan, ended.2.2.notes.plan = some plan ∧
      ((ended.2.1 = none ∧ Repeats ended.1 plan c ∧ MarkedAll w policy start ended.2.2 ∧
          (ended.2.2.notes.pool = none →
            c.accepted = ∅ ∨ plan.recs = none ∧ PoolLost py task plan.targets ended.2.2.log)) ∨
        (ended.2.1.isSome = true ∧ ended.1.requested = 0 ∧ Reads w policy.monitor ended.2.2.log ∧
          (∀ call ∈ ended.2.2.log, KeepsFlags call) ∧
          (Failed py w task plan.targets.toFinset ended.2.2.log ∨
              Unwritable plan ended.2.2.notes))) := by
  intro ended c hc
  obtain ⟨plan, c', hplan, hconfirmed, -, hrest⟩ | ⟨herror, hzero, -, hreads, hcause⟩ :=
    run_ends py policy task hw hp
  · rw [hc] at hconfirmed
    obtain rfl := Option.some.inj hconfirmed
    exact ⟨plan, hplan, .inl hrest⟩
  · obtain ⟨plan, hplan, -, hreason⟩ := hcause c hc
    exact ⟨plan, hplan, .inr ⟨herror, hzero, hreads, fun _ => hreads.keepsFlags, hreason⟩⟩

/-- The jobset is removed once the query has written what it found, and before its records are
looked at. -/
def removedAfterQuery : World := endsFirst fun n s => if n = 7 then s.storeDeleteJobset "js" else s

theorem lawful_removedAfterQuery : removedAfterQuery.Lawful := by
  intro n s hp
  change (if n = 7 then s.storeDeleteJobset "js" else s).Placed
  split
  · exact hp.storeDeleteJobset "js"
  · exact hp

/-- The kill was accepted and its query has written, but nothing is marked or reported. -/
theorem bookkeeping_kept_removed :
    let ended := run Python.ascii removedAfterQuery byDefault killFirst running
    ∃ c plan, ended.2.2.notes.confirmed = some c ∧ c.accepted = {"7[1]".toList} ∧
      ended.2.2.notes.plan = some plan ∧ plan.requested = 1 ∧ ended.1.requested = 0 ∧
      (∃ call ∈ ended.2.2.log, stateAndFlag call.before "a" = some (.run, false) ∧
        stateAndFlag call.after "a" = some (.exit, false)) ∧
      ∀ call ∈ ended.2.2.log, KeepsFlags call := by
  intro ended
  have haccepted : ended.2.2.notes.confirmed.map (·.accepted) = some {"7[1]".toList} := by
    decide +kernel
  have hrequested : ended.2.2.notes.plan.map (·.requested) = some 1 := by decide +kernel
  have herror : ended.2.1.isSome = true := by decide +kernel
  have hwritten : ∃ call ∈ ended.2.2.log, stateAndFlag call.before "a" = some (.run, false) ∧
      stateAndFlag call.after "a" = some (.exit, false) := by decide +kernel
  obtain ⟨c, hc, hacc⟩ := Option.map_eq_some_iff.mp haccepted
  obtain ⟨plan, hplan, ⟨hnone, -⟩ | ⟨-, hzero, -, hflags, -⟩⟩ :=
    bookkeeping_kept Python.ascii byDefault killFirst lawful_removedAfterQuery placed_running c hc
  · rw [hnone] at herror
    cases herror
  · rw [hplan] at hrequested
    exact ⟨c, plan, hc, hacc, hplan, Option.some.inj hrequested, hzero, hwritten, hflags⟩

end Results

end Lsfmgr.Kill
