import Mathlib
import Lsfmgr.Mock.Life

/-!
# Mock/Finished — a finished job stays finished, and only what was written is logged

A guard never lets a write through to a finished row (`Rewrites.mem`), so its row stays as it is but
for the group `bmod` sets.  An event waits in its process from the write on, and is lost if the
process ends before it is logged: what is logged and what waits is never more than what was written
(`Recorded`).
-/

namespace Lsfmgr.Mock

open Machinery
open Command (Text)

variable {cl : Cluster} {firstJobId n : ℕ}

/-! ## Rows -/

/-- A row that no write is about is left. -/
theorem mem_replaceRow {rows : List Job} {row after : Job} (h : row ∈ rows)
    (hne : row.rowId ≠ after.rowId) :
    row ∈ replaceRow rows after := by
  refine List.mem_map.mpr ⟨row, h, ?_⟩
  rw [if_neg hne]

/-- **A finished row is not rewritten.** -/
theorem Rewrites.mem {rows rows' : List Job} {ws : List Applied} (h : Rewrites rows ws rows')
    (hnodup : (rows.map (·.rowId)).Nodup) {row : Job} (hrow : row ∈ rows)
    (hfin : row.stat.isFinished = true) : row ∈ rows' := by
  induction h with
  | nil => exact hrow
  | @cons rows rows' w ws hmem hlegal _ ih =>
    have hne : row.rowId ≠ w.after.rowId := fun heq => by
      have hsame : row = w.before :=
        List.inj_on_of_nodup_map hnodup hrow hmem (heq.trans (rowId_of_fixed hlegal.fixed))
      have hopen := hlegal.move.not_finished
      rw [← hsame, hfin] at hopen
      cases hopen
    refine ih ?_ (mem_replaceRow hrow hne)
    rwa [map_rowId_of_fixed (map_fixed_replaceRow hmem hnodup hlegal.fixed)]

/-- The row has ended as the other one has. -/
structure SameEnd (row row' : Job) : Prop where
  rowId : row'.rowId = row.rowId
  stat : row'.stat = row.stat
  exitCode : row'.exitCode = row.exitCode
  finishTime : row'.finishTime = row.finishTime

theorem SameEnd.trans {a b c : Job} (h : SameEnd a b) (h' : SameEnd b c) : SameEnd a c :=
  ⟨h'.rowId.trans h.rowId, h'.stat.trans h.stat, h'.exitCode.trans h.exitCode,
    h'.finishTime.trans h.finishTime⟩

theorem Effect.finished {db db' : Database} {ws : List Applied}
    (h : Effect db ws db') (hsane : db.Sane)
    {row : Job} (hrow : row ∈ db.rows) (hfin : row.stat.isFinished = true) :
    ∃ row' ∈ db'.rows, SameEnd row row' := by
  cases h with
  | quiet hrows => exact ⟨row, by rw [hrows]; exact hrow, rfl, rfl, rfl, rfl⟩
  | inserted => exact ⟨row, List.mem_append_left _ hrow, rfl, rfl, rfl, rfl⟩
  | regrouped rowId group =>
    refine ⟨_, List.mem_map_of_mem hrow, ?_⟩
    split <;> exact ⟨rfl, rfl, rfl, rfl⟩
  | rewritten hrw => exact ⟨row, hrw.mem hsane.keyed.nodup hrow hfin, rfl, rfl, rfl, rfl⟩

theorem finished_of_run {s s' : MockState} {as : List Act} (h : Coherent s)
    (hrun : (mock cl firstJobId n).run s as = some s') {row : Job} (hrow : row ∈ s.db.rows)
    (hfin : row.stat.isFinished = true) : ∃ row' ∈ s'.db.rows, SameEnd row row' := by
  induction as generalizing s row with
  | nil =>
    obtain rfl := Option.some.inj hrun
    exact ⟨row, hrow, rfl, rfl, rfl, rfl⟩
  | cons a as ih =>
    obtain ⟨t, hstep, hrun⟩ := Option.bind_eq_some_iff.mp hrun
    obtain ⟨hco, ws, -, heffect⟩ := effect_of_step h hstep
    obtain ⟨row₁, hrow₁, hsame⟩ := heffect.finished h.sane hrow hfin
    obtain ⟨row₂, hrow₂, hsame'⟩ := ih hco hrun hrow₁ (by rw [hsame.stat]; exact hfin)
    exact ⟨row₂, hrow₂, hsame.trans hsame'⟩

/-! ## Events -/

/-- The events of a list that are about a write. -/
def recorded (log : List Event) : Multiset Event := (log.filter (·.kind ≠ .submit) : List Event)

@[simp] theorem recorded_nil : recorded [] = 0 := rfl

theorem recorded_append (l l' : List Event) : recorded (l ++ l') = recorded l + recorded l' := by
  rw [recorded, List.filter_append, ← Multiset.coe_add]
  rfl

theorem recorded_cons (e : Event) (l : List Event) :
    recorded (e :: l) = recorded [e] + recorded l :=
  recorded_append [e] l

theorem recorded_le (l : List Event) : recorded l ≤ l := (List.filter_sublist).subperm

theorem recorded_submit (jobs : List Job) : recorded (jobs.map submitEvent) = 0 := by
  induction jobs with
  | nil => rfl
  | cons job jobs ih =>
    rw [List.map_cons, recorded_cons, ih]
    rfl

/-- **What is logged, and what the processes still have to log, was written.** -/
def Recorded (s : MockState) : Prop :=
  recorded s.db.events + (s.clients.map fun c => recorded c.log).sum
      + (s.schedulers.map fun sc => recorded sc.log).sum ≤ (s.writes.map (·.event) : List Event)

theorem events_updateGuardedMany {event : Job × Job → Event} {pairs : List (Job × Job)}
    {db db' : Database}
    {ws : List Applied} (h : db.updateGuardedMany event pairs = (db', ws)) :
    db'.events = db.events := by
  induction pairs generalizing db ws with
  | nil =>
    cases h
    rfl
  | cons p pairs ih =>
    rcases hrest : Database.updateGuardedMany event (db.update p.2.rowId
      (fun row => Database.checkedColumns.all (Column.same p.2 row))
      Database.writtenColumns p.1).1 pairs
      with ⟨db₁, ws₁⟩
    rw [Database.updateGuardedMany] at h
    simp only [hrest] at h
    obtain ⟨rfl, -⟩ := Prod.mk.inj h
    exact (ih hrest).trans rfl

/-- A step of a client logs an event it has, or gets one for a write. -/
theorem ClientStep.logs {db db' : Database} {c : Client} {a : ClientAct} {cs : List Client}
    {ws : List Applied} (h : ClientStep db c a db' cs ws) :
    recorded db'.events + (cs.map fun c => recorded c.log).sum
      ≤ recorded db.events + recorded c.log + (ws.map (·.event) : List Event) := by
  cases h with
  | stop => simp
  | issue | query | begin => simp
  | @log event log hlog =>
    simp only [Database.logEvent, recorded_append, hlog, recorded_cons event log,
      List.map_cons, List.map_nil, List.sum_singleton, Multiset.coe_nil, add_zero,
      add_assoc, le_refl]
  | insert hlog => simp [Database.insertJobs, recorded_submit, hlog]
  | regroup hlog | skip hlog => simp [Database.updateJobGroup, hlog]
  | write hlog _ _ hup =>
    obtain ⟨rfl, -⟩ := Prod.mk.inj hup
    simp only [List.map_cons, List.map_nil, List.sum_singleton, hlog, recorded_nil, add_zero]
    exact add_le_add_right (recorded_le _) _

/-- …and so does a step of a scheduler. -/
theorem SchedulerStep.logs {db db' : Database} {sc sc' : Scheduler} {a : SchedulerAct}
    {ws : List Applied} (h : SchedulerStep cl db sc a db' sc' ws) :
    recorded db'.events + recorded sc'.log
      ≤ recorded db.events + recorded sc.log + (ws.map (·.event) : List Event) := by
  cases h with
  | abort => simp
  | tick _ hlog | count hlog | order hlog => simp
  | @log event log hlog =>
    simp only [Database.logEvent, recorded_append, hlog, recorded_cons event log, List.map_nil,
      Multiset.coe_nil, add_zero, add_assoc, le_refl]
  | transit hlog _ hup | dispatch hlog _ hup =>
    rw [events_updateGuardedMany hup, hlog, recorded_nil, add_zero]
    exact add_le_add_right (recorded_le _) _

/-- What one process logs and gets is what the pool does. -/
theorem pool_le {logged logged' pool pool' old new rest written ws : Multiset Event}
    (hstep : logged' + new ≤ logged + old + ws) (hpool : pool' + old = pool + new)
    (h : logged + pool + rest ≤ written) : logged' + pool' + rest ≤ written + ws := by
  refine le_of_add_le_add_right (a := old) ?_
  calc logged' + pool' + rest + old
      = (logged' + new) + (pool + rest) := by
        rw [add_right_comm, add_assoc logged', hpool]
        abel
    _ ≤ (logged + old + ws) + (pool + rest) := add_le_add_left hstep _
    _ = (logged + pool + rest) + ws + old := by abel
    _ ≤ _ := add_le_add_left (add_le_add_left h _) _

theorem recorded_step {s s' : MockState} {a : Act} (h : Recorded s)
    (hstep : (mock cl firstJobId n).step s a = some s') : Recorded s' := by
  rw [Recorded] at h ⊢
  obtain ⟨c, rfl, hlog, -⟩ | ⟨i, act, c, db', cs, ws, -, hi, hcs, rfl⟩ |
    ⟨i, act, sc, db', sc', ws, -, hi, hscs, rfl⟩ := mock_cases hstep
  · simpa [hlog] using h
  · simp only [List.map_append, ← Multiset.coe_add]
    exact pool_le hcs.logs (sum_replaceAt (fun c : Client => recorded c.log) hi cs) h
  · simp only [List.map_append, ← Multiset.coe_add]
    rw [add_right_comm] at h ⊢
    refine pool_le hscs.logs ?_ h
    simpa using sum_replaceAt (fun sc : Scheduler => recorded sc.log) hi [sc']

theorem recorded_init {s : MockState} (h : (mock cl firstJobId n).init s) : Recorded s := by
  obtain rfl : s = _ := h
  simp [Recorded]

/-- **Finished jobs stay finished**, with any number of schedulers, in every order of the steps: in
every run from a state that is reached a finished row keeps its state, its exit code and its end;
and every event about a write that is logged is that of a write of its own: a move of a row, applied
in some step, of the job and the element that the event names. -/
theorem finished_stays (cl : Cluster) (firstJobId n : ℕ) {s : MockState}
    (hs : (mock cl firstJobId n).Reachable s) :
    (∀ as s', (mock cl firstJobId n).run s as = some s' →
      ∀ row ∈ s.db.rows, row.stat.isFinished = true →
      ∃ row' ∈ s'.db.rows, SameEnd row row' ∧ ∀ other ∈ s'.db.rows,
        other.rowId = row.rowId → other = row') ∧
    (s.db.events.filter (·.kind ≠ .submit)).Subperm (s.writes.map (·.event)) ∧
    (∀ w ∈ s.writes, w.Legal) ∧
    ∀ a s', (mock cl firstJobId n).step s a = some s' →
      ∃ ws, s'.writes = s.writes ++ ws ∧ Effect s.db ws s'.db := by
  have hco : Coherent s := coherent_of_reachable hs
  refine ⟨fun as s' hrun row hrow hfin => ?_, ?_, ?_,
    fun a s' hstep => (effect_of_step hco hstep).2⟩
  · obtain ⟨row', hrow', hsame⟩ := finished_of_run hco hrun hrow hfin
    have hco' : Coherent s' := coherent_of_reachable (System.reachable_of_run hs hrun)
    exact ⟨row', hrow', hsame, fun other hother heq =>
      hco'.sane.keyed.eq hother hrow' (heq.trans hsame.rowId.symm)⟩
  · have hrec : Recorded s :=
      hs.invariant (fun _ => recorded_init) fun _ _ _ _ h _ => recorded_step h
    exact ((Multiset.le_add_right _ _).trans (Multiset.le_add_right _ _)).trans hrec
  · refine hs.invariant (I := fun s => ∀ w ∈ s.writes, w.Legal) ?_ fun s a s' hr h _ hstep => ?_
    · rintro s rfl
      simp
    · obtain ⟨-, ws, hwrites, heffect⟩ := effect_of_step (coherent_of_reachable hr) hstep
      rw [hwrites]
      exact List.forall_mem_append.mpr ⟨h, heffect.legal⟩

/-- A job that is dispatched and killed. -/
theorem finished_stays_killed :
    ∃ s, (mock oneHost 1000 1).run (start 1) (submission ++ tick 11 ++ command 1 (.bkill []) 12) =
      some s ∧
      (∃ row ∈ s.db.rows, row.stat = .exit) ∧
      (s.db.events.filter (·.kind ≠ .submit)).Subperm (s.writes.map (·.event)) := by
  have hrun :
    ((mock oneHost 1000 1).run (start 1) (submission ++ tick 11 ++ command 1 (.bkill []) 12)).any
      (fun s => s.db.rows.any (·.stat = .exit)) = true := by decide +kernel
  obtain ⟨s, hs, hrow⟩ := (Option.any_eq_true _ _).mp hrun
  have hreach : (mock oneHost 1000 1).Reachable s := System.reachable_of_run (.init rfl) hs
  exact ⟨s, hs, by simpa using hrow, (finished_stays oneHost 1000 1 hreach).2.1⟩

end Lsfmgr.Mock
