import Mathlib
import Lsfmgr.Mock.System

/-!
# Mock/Life — the life of a job, and that every write is a move in it

`Move` says what may happen to a row, from the row alone; nothing happens to a finished one.  A
process decides on a copy that may be out of date, but the guards of the two updates let pass only
what is a move of the row as it is (`ClientStep.moves`, `SchedulerStep.moves`).
-/

namespace Lsfmgr.Mock

open Machinery
open Command (Text)

/-! ## Moves -/

/-- What may become of a row at a time, and the event of it. -/
inductive Move (row : Job) (now : ℚ) : Job → EventKind → Prop
  | kill : row.stat.isFinished = false →
      Move row now { row with stat := .exit, exitCode := 130, finishTime := some now } .kill
  | stop : row.stat = .run ∨ row.stat = .ssusp →
      Move row now { row with stat := .ususp, suspSince := now } .suspend
  | stopPending :
      row.stat = .pend → Move row now { row with stat := .psusp, suspSince := now } .suspend
  | resume (finishTime : Option ℚ) : row.stat = .ususp →
      Move row now { row with stat := .run, suspSince := 0, finishTime } .resume
  | resumePending (pendSecs : ℚ) : row.stat = .psusp →
      Move row now { row with stat := .pend, suspSince := 0, pendSecs } .resume
  | finish (exitCode : ℤ) : row.stat = .run ∨ row.stat = .ssusp →
      Move row now { row with stat := row.plannedOutcome, finishTime := some now, exitCode }
        (if row.plannedOutcome = .done then .done else .exit)
  | systemStop : row.stat = .run → Move row now { row with stat := .ssusp } .suspend
  | systemResume : row.stat = .ssusp → Move row now { row with stat := .run } .resume
  | dispatch (host : Text) : row.stat = .pend →
      Move row now
        { row with
          stat := .run, execHost := some host, startTime := some now
          finishTime := some (now + row.runSecs + row.suspendSecs) } .dispatch

/-- The event names the job, or the element, of the row. -/
structure Event.About (e : Event) (row : Job) : Prop where
  jobId : e.jobId = row.jobId
  arrayIndex : e.arrayIndex = row.arrayIndex

/-- **The applied write is a move**, and its event says which, and of which job. -/
structure Applied.Legal (w : Applied) : Prop where
  move : Move w.before w.event.ts w.after w.event.kind
  about : w.event.About w.before

theorem Move.fixed {row row' : Job} {now : ℚ} {kind : EventKind} (h : Move row now row' kind) :
    row'.fixed = row.fixed := by
  cases h <;> rfl

/-- **Nothing happens to a finished job.** -/
theorem Move.not_finished {row row' : Job} {now : ℚ} {kind : EventKind}
    (h : Move row now row' kind) :
    row.stat.isFinished = false := by
  cases h with
  | kill h => exact h
  | stop h => rcases h with h | h <;> rw [h] <;> rfl
  | stopPending h => rw [h]; rfl
  | resume _ h => rw [h]; rfl
  | resumePending _ h => rw [h]; rfl
  | finish _ h => rcases h with h | h <;> rw [h] <;> rfl
  | systemStop h => rw [h]; rfl
  | systemResume h => rw [h]; rfl
  | dispatch _ h => rw [h]; rfl

theorem Applied.Legal.fixed {w : Applied} (h : w.Legal) : w.after.fixed = w.before.fixed :=
  h.move.fixed

/-- An event is about every row with what is fixed of its own. -/
theorem Event.About.of_fixed {e : Event} {row row' : Job} (h : e.About row)
    (hfixed : row'.fixed = row.fixed) : e.About row' where
  jobId := h.jobId.trans (congrArg (·.jobId) hfixed).symm
  arrayIndex := h.arrayIndex.trans (congrArg (·.arrayIndex) hfixed).symm

/-- Rows rewritten by legal writes, one after the other. -/
inductive Rewrites : List Job → List Applied → List Job → Prop
  | nil (rows : List Job) : Rewrites rows [] rows
  | cons {rows rows' : List Job} {w : Applied} {ws : List Applied} : w.before ∈ rows → w.Legal →
      Rewrites (replaceRow rows w.after) ws rows' → Rewrites rows (w :: ws) rows'

/-- Every one of the writes is a move. -/
theorem Rewrites.legal {rows rows' : List Job} {ws : List Applied} (h : Rewrites rows ws rows') :
    ∀ w ∈ ws, w.Legal := by
  induction h with
  | nil => simp
  | cons _ hlegal _ ih => exact List.forall_mem_cons.mpr ⟨hlegal, ih⟩

/-! ## Copies of rows -/

/-- The job was read from a row of the table, maybe long ago. -/
def Database.Copied (db : Database) (job : Job) : Prop := job.fixed ∈ db.rows.map Job.fixed

theorem Database.copied_of_mem {db : Database} {job : Job} (h : job ∈ db.rows) : db.Copied job :=
  List.mem_map_of_mem h

theorem mem_jobsInStates {db : Database} {states : List Stat} {job : Job}
    (h : job ∈ db.jobsInStates states) : job ∈ db.rows ∧ job.stat ∈ states := by
  have hmem := (List.perm_insertionSort _ _).mem_iff.mp h
  simpa using hmem

/-- **A row that passes the check is the copy**, but for its group. -/
theorem eq_of_checked {row prev : Job} (hfixed : row.fixed = prev.fixed)
    (hcheck : (Database.checkedColumns.all (Column.same prev row)) = true) :
    row = { prev with jobGroup := row.jobGroup } := by
  simp only [Database.checkedColumns, Database.writtenColumns, List.cons_append, List.nil_append,
    List.all_cons, List.all_nil, Column.same, Bool.and_true, Bool.and_eq_true, decide_eq_true_eq]
      at hcheck
  obtain ⟨h₁, h₂, h₃, h₄, h₅, h₆, h₇⟩ := hcheck
  cases row
  cases prev
  simp only [Job.fixed, Job.mk.injEq] at hfixed h₁ h₂ h₃ h₄ h₅ h₆ h₇ ⊢
  simp_all

/-- The pair of a row and what it is to become stands for a move of every row that passes the
check. -/
structure Proposal (event : Job × Job → Event) (p : Job × Job) : Prop where
  move : ∀ group, p.2.plannedOutcome.isFinished = true →
    Move { p.2 with jobGroup := group } (event p).ts
      (assignAll Database.writtenColumns p.1 { p.2 with jobGroup := group }) (event p).kind
  about : (event p).About p.2

theorem isActive_cases {stat : Stat} (h : stat.isActive = true) (hne : stat ≠ .ususp) :
    stat = .run ∨ stat = .ssusp := by
  cases stat <;> simp [Stat.isActive] at h hne ⊢

theorem finished_cases {stat : Stat} (h : stat.isFinished = true) :
    stat = .done ∨ stat = .exit := by
  cases stat <;> simp [Stat.isFinished] at h ⊢

theorem transitionEvent_ts (now : ℚ) (p : Job × Job) : (transitionEvent now p).ts = now := by
  rw [transitionEvent]
  split
  · rfl
  · split <;> rfl

theorem transitionEvent_kind (now : ℚ) (p : Job × Job) : (transitionEvent now p).kind
    = if p.2.stat = .pend then .dispatch
      else if p.1.stat = .done ∨ p.1.stat = .exit then if p.1.stat = .done then .done else .exit
      else if p.1.stat = .ssusp then .suspend else .resume := by
  rw [transitionEvent]
  split
  · rfl
  · split <;> rfl

/-- The event of a pair is about the row that was read. -/
theorem transitionEvent_about (now : ℚ) {p : Job × Job} (h : p.1.fixed = p.2.fixed) :
    (transitionEvent now p).About p.2 := by
  have habout : (transitionEvent now p).About p.1 := by
    rw [transitionEvent]
    split
    · exact ⟨rfl, rfl⟩
    · split <;> exact ⟨rfl, rfl⟩
  exact habout.of_fixed h.symm

theorem transition_fixed {now : ℚ} {j j' : Job} (h : transition now j = some j') :
    j'.fixed = j.fixed := by
  simp only [transition] at h
  split_ifs at h <;> obtain rfl := Option.some.inj h <;> rfl

/-- **Every transition of an active job is a move.** -/
theorem proposal_transition {now : ℚ} {j j' : Job} (h : transition now j = some j')
    (hactive : j.stat.isActive = true) : Proposal (transitionEvent now) (j', j) := by
  refine ⟨fun group (hplanned : j.plannedOutcome.isFinished = true) => ?_,
    transitionEvent_about now (transition_fixed h)⟩
  have hpend : j.stat ≠ .pend := by
    rintro heq
    rw [heq] at hactive
    cases hactive
  rw [transitionEvent_ts, transitionEvent_kind, if_neg hpend]
  rw [transition] at h
  split at h
  case isTrue => cases h
  case isFalse hne =>
    have hstat := isActive_cases hactive hne
    split at h
    case isTrue =>
      obtain rfl := Option.some.inj h
      have hfinished : (finish now j).stat = .done ∨ (finish now j).stat = .exit :=
        finished_cases hplanned
      rw [if_pos hfinished]
      exact @Move.finish { j with jobGroup := group } now _ hstat
    case isFalse =>
      by_cases hchange : (if inSuspension now j then Stat.ssusp else .run) ≠ j.stat
      · rw [if_pos hchange] at h
        obtain rfl := Option.some.inj h
        rcases hsusp : inSuspension now j with _ | _
        · simp only [hsusp, Bool.false_eq_true, if_false] at hchange ⊢
          have hssusp : j.stat = .ssusp := hstat.resolve_left fun heq => hchange heq.symm
          exact @Move.systemResume { j with jobGroup := group } now hssusp
        · simp only [hsusp, if_true] at hchange ⊢
          have hrun : j.stat = .run := hstat.resolve_right fun heq => hchange heq.symm
          exact @Move.systemStop { j with jobGroup := group } now hrun
      · rw [if_neg hchange] at h
        cases h

/-- **Every dispatch of a pending job is a move.** -/
theorem proposal_dispatch (now : ℚ) (host : Text) {j : Job} (h : j.stat = .pend) :
    Proposal (transitionEvent now) (dispatch now host j, j) := by
  refine ⟨fun group _ => ?_, transitionEvent_about now rfl⟩
  rw [transitionEvent_ts, transitionEvent_kind, if_pos h]
  exact @Move.dispatch { j with jobGroup := group } now host h

/-! ## The two updates -/

/-- What is written of a pair: the columns of `update_guarded_many`. -/
structure Written (event : Job × Job → Event) (p : Job × Job) (w : Applied) : Prop where
  event : w.event = event p
  after : w.after = assignAll Database.writtenColumns p.1 w.before
  before : w.before = { p.2 with jobGroup := w.before.jobGroup }

/-- Every write is that of a pair. -/
theorem pair_of_written {event : Job × Job → Event} {pairs : List (Job × Job)} {ws : List Applied}
    (h : List.Forall₂ (Written event) pairs ws) {w : Applied} (hw : w ∈ ws) :
    ∃ p ∈ pairs, Written event p w := by
  induction h with
  | nil => cases hw
  | cons hpw _ ih =>
    rcases List.mem_cons.mp hw with rfl | hw
    · exact ⟨_, List.mem_cons_self, hpw⟩
    · obtain ⟨p, hp, hwritten⟩ := ih hw
      exact ⟨p, List.mem_cons_of_mem _ hp, hwritten⟩

theorem map_fixed_replaceRow {rows : List Job} {row after : Job} (hmem : row ∈ rows)
    (hnodup : (rows.map (·.rowId)).Nodup) (hfixed : after.fixed = row.fixed) :
    (replaceRow rows after).map Job.fixed = rows.map Job.fixed := by
  rw [replaceRow, List.map_map]
  refine List.map_congr_left fun row' hrow' => ?_
  simp only [Function.comp_apply]
  split
  case isTrue heq =>
    have hsame : row' = row :=
      List.inj_on_of_nodup_map hnodup hrow' hmem (heq.trans (rowId_of_fixed hfixed))
    rw [hfixed, hsame]
  case isFalse => rfl

/-- The ids are among what is fixed. -/
theorem map_rowId_of_fixed {rows rows' : List Job} (h : rows'.map Job.fixed = rows.map Job.fixed) :
    rows'.map (·.rowId) = rows.map (·.rowId) := by
  have := congrArg (List.map (·.rowId)) h
  rwa [List.map_map, List.map_map] at this

/-- **Rewriting leaves what is fixed.** -/
theorem Rewrites.fixed {rows rows' : List Job} {ws : List Applied} (h : Rewrites rows ws rows')
    (hnodup : (rows.map (·.rowId)).Nodup) : rows'.map Job.fixed = rows.map Job.fixed := by
  induction h with
  | nil => rfl
  | cons hmem hlegal _ ih =>
    have hstep := map_fixed_replaceRow hmem hnodup hlegal.fixed
    rw [ih (by rwa [map_rowId_of_fixed hstep]), hstep]

section Guarded

variable {db db' : Database} {event : Job × Job → Event} {pairs : List (Job × Job)}
    {ws : List Applied}

/-- What may be relied on of a row. -/
structure Database.Sane (db : Database) : Prop where
  keyed : db.Keyed
  planned : ∀ row ∈ db.rows, row.plannedOutcome.isFinished = true

theorem Database.Sane.of_fixed (h : db.Sane)
    (hrows : db'.rows.map Job.fixed = db.rows.map Job.fixed)
    (hnext : db'.nextRow = db.nextRow) : db'.Sane := by
  have hcopy : ∀ row' ∈ db'.rows, ∃ row ∈ db.rows, row.fixed = row'.fixed := fun row' hrow' => by
    have hmem : row'.fixed ∈ db'.rows.map Job.fixed := List.mem_map_of_mem hrow'
    rw [hrows] at hmem
    exact List.mem_map.mp hmem
  refine ⟨⟨by rw [map_rowId_of_fixed hrows]; exact h.keyed.nodup, fun row' hrow' => ?_⟩,
    fun row' hrow' => ?_⟩
  · obtain ⟨row, hrow, heq⟩ := hcopy row' hrow'
    rw [hnext, ← rowId_of_fixed heq]
    exact h.keyed.lt row hrow
  · obtain ⟨row, hrow, heq⟩ := hcopy row' hrow'
    rw [← show row.plannedOutcome = row'.plannedOutcome from congrArg (·.plannedOutcome) heq]
    exact h.planned row hrow

/-- **Guarded updates are moves**: of the pairs that stand for one, those that find their row as it
was read are written, in order. -/
theorem updateGuardedMany_moves (hsane : db.Sane)
    (hpairs : ∀ p ∈ pairs, db.Copied p.2 ∧ Proposal event p)
    (h : db.updateGuardedMany event pairs = (db', ws)) :
    Rewrites db.rows ws db'.rows ∧ db' = { db with rows := db'.rows } ∧
      ∃ pairs', pairs'.Sublist pairs ∧ List.Forall₂ (Written event) pairs' ws := by
  induction pairs generalizing db ws with
  | nil =>
    cases h
    exact ⟨.nil _, rfl, [], List.nil_sublist _, .nil⟩
  | cons p pairs ih =>
    obtain ⟨job, prev⟩ := p
    rw [List.forall_mem_cons] at hpairs
    rw [Database.updateGuardedMany] at h
    rcases Database.update_cases hsane.keyed prev.rowId
        (fun row => Database.checkedColumns.all (Column.same prev row))
            Database.writtenColumns job with
      heq | ⟨row, hrow, hid, hcheck, heq⟩
    · rw [heq] at h
      obtain ⟨hrw, hdb, pairs', hsub, hall⟩ := ih hsane hpairs.2 h
      exact ⟨hrw, hdb, pairs', hsub.cons _, hall⟩
    · rw [heq] at h
      obtain ⟨row₀, hrow₀, hcopy⟩ := List.mem_map.mp hpairs.1.1
      obtain rfl := hsane.keyed.eq hrow₀ hrow ((rowId_of_fixed hcopy).trans hid.symm)
      have hrowEq := eq_of_checked hcopy hcheck
      have hplanned : prev.plannedOutcome.isFinished = true := by
        rw [← show row₀.plannedOutcome = prev.plannedOutcome from congrArg (·.plannedOutcome) hcopy]
        exact hsane.planned _ hrow₀
      have hmove := hpairs.1.2.move row₀.jobGroup hplanned
      simp only at hmove
      rw [← hrowEq] at hmove
      have hlegal :
          Applied.Legal ⟨row₀, assignAll Database.writtenColumns job row₀, event (job, prev)⟩ :=
        ⟨hmove, hpairs.1.2.about.of_fixed hcopy⟩
      have hfixed := map_fixed_replaceRow hrow₀ hsane.keyed.nodup
        (fixed_assignAll Database.writtenColumns job row₀)
      rcases hrest : Database.updateGuardedMany event
          { db with rows := replaceRow db.rows (assignAll Database.writtenColumns job row₀) }
            pairs with ⟨db₂, ws₂⟩
      simp only [hrest] at h
      obtain ⟨rfl, rfl⟩ := Prod.mk.inj h
      have hsane' :
        ({ db with rows := replaceRow db.rows (assignAll Database.writtenColumns job row₀) } :
          Database).Sane := hsane.of_fixed hfixed rfl
      obtain ⟨hrw, hdb, pairs', hsub, hall⟩ := ih hsane'
        (fun p hp =>
          ⟨by rw [Database.Copied, hfixed]; exact (hpairs.2 p hp).1, (hpairs.2 p hp).2⟩) hrest
      exact ⟨.cons hrow₀ hlegal hrw, hdb, (job, prev) :: pairs', hsub.cons_cons _,
        .cons ⟨rfl, rfl, hrowEq⟩ hall⟩

/-- **A write guarded by the state alone** is a move, if it is one of every row in the states
allowed. -/
theorem updateIfStatIn_moves {job : Job} {allowed : List Stat} {columns : List Column} {e : Event}
    {applied : Option Applied} (hsane : db.Sane) (hcopy : db.Copied job)
    (hmove : ∀ row : Job, row.fixed = job.fixed → row.stat ∈ allowed →
      Applied.Legal ⟨row, assignAll columns job row, e⟩)
    (h : db.updateIfStatIn job allowed columns e = (db', applied)) :
    Rewrites db.rows applied.toList db'.rows ∧ db' = { db with rows := db'.rows } ∧
      ∀ w ∈ applied, w.before ∈ db.rows ∧ w.before.fixed = job.fixed ∧ w.before.stat ∈ allowed ∧
        w.after = assignAll columns job w.before ∧ w.event = e := by
  rw [Database.updateIfStatIn] at h
  rcases Database.update_cases hsane.keyed job.rowId
      (fun row => row.stat ∈ allowed) columns job with
    heq | ⟨row, hrow, hid, hallowed, heq⟩
  · rw [heq] at h
    cases h
    exact ⟨.nil _, rfl, fun w hw => by cases hw⟩
  · rw [heq] at h
    cases h
    obtain ⟨row₀, hrow₀, hfixed⟩ := List.mem_map.mp hcopy
    obtain rfl := hsane.keyed.eq hrow₀ hrow ((rowId_of_fixed hfixed).trans hid.symm)
    have hin : row₀.stat ∈ allowed := of_decide_eq_true hallowed
    refine ⟨.cons hrow₀ (hmove row₀ hfixed hin) (.nil _), rfl, fun w hw => ?_⟩
    obtain rfl := Option.some.inj hw
    exact ⟨hrow₀, hfixed, hin, rfl, rfl⟩

end Guarded

/-- **Every write of a command is a move of a row in the states it allows.** -/
theorem Cmd.write_moves {cmd : Cmd} {now : ℚ} {j row : Job} {w : Write}
    (h : cmd.write now j = some w)
    (hstat : row.stat ∈ w.allowed) :
    Move row w.event.ts (assignAll w.columns w.job row) w.event.kind := by
  rcases cmd with cluster | - | - | group
  · simp only [Cmd.write, bkillWrite] at h
    split at h
    · cases h
    · obtain rfl := Option.some.inj h
      refine .kill ?_
      simp only [List.mem_cons, List.not_mem_nil, or_false] at hstat
      rcases hstat with h | h | h | h | h <;> rw [h] <;> rfl
  · simp only [Cmd.write, bstopWrite] at h
    split at h
    case h_1 | h_2 =>
      obtain rfl := Option.some.inj h
      exact .stop (by simpa using hstat)
    case h_3 =>
      obtain rfl := Option.some.inj h
      exact .stopPending (by simpa using hstat)
    case h_4 => cases h
  · simp only [Cmd.write, bresumeWrite] at h
    split at h
    case h_1 =>
      obtain rfl := Option.some.inj h
      exact .resume _ (by simpa using hstat)
    case h_2 =>
      obtain rfl := Option.some.inj h
      exact .resumePending _ (by simpa using hstat)
    case h_3 => cases h
  · cases h

theorem Cmd.write_about {cmd : Cmd} {now : ℚ} {j : Job} {w : Write} (h : cmd.write now j = some w) :
    w.event.About w.job := by
  rcases cmd with cluster | - | - | group
  · simp only [Cmd.write, bkillWrite] at h
    split at h <;> cases h
    exact ⟨rfl, rfl⟩
  · simp only [Cmd.write, bstopWrite] at h
    split at h <;> cases h <;> exact ⟨rfl, rfl⟩
  · simp only [Cmd.write, bresumeWrite] at h
    split at h <;> cases h <;> exact ⟨rfl, rfl⟩
  · cases h

/-- The write is legal on every row it may be applied to. -/
theorem Cmd.write_legal {cmd : Cmd} {now : ℚ} {j row : Job} {w : Write}
    (h : cmd.write now j = some w)
    (hfixed : row.fixed = w.job.fixed) (hstat : row.stat ∈ w.allowed) :
    Applied.Legal ⟨row, assignAll w.columns w.job row, w.event⟩ :=
  ⟨Cmd.write_moves h hstat, (Cmd.write_about h).of_fixed hfixed⟩

theorem Cmd.write_fixed {cmd : Cmd} {now : ℚ} {j : Job} {w : Write} (h : cmd.write now j = some w) :
    w.job.fixed = j.fixed := by
  rcases cmd with cluster | - | - | group
  · simp only [Cmd.write, bkillWrite] at h
    split at h <;> cases h
    rfl
  · simp only [Cmd.write, bstopWrite] at h
    split at h <;> cases h <;> rfl
  · simp only [Cmd.write, bresumeWrite] at h
    split at h <;> cases h <;> rfl
  · cases h

/-! ## Effects -/

/-- A job as it is inserted. -/
structure Fresh (job : Job) : Prop where
  pend : job.stat = .pend
  planned : job.plannedOutcome.isFinished = true

theorem fresh_of_buildJobs {id : ℕ} {req : Request} {plan : ℕ → Plan} {now : ℚ} {job : Job}
    (h : job ∈ buildJobs id req plan now) : Fresh job := by
  rw [buildJobs] at h
  split at h
  · obtain rfl := List.mem_singleton.mp h
    exact ⟨rfl, by simp only; split <;> rfl⟩
  · obtain ⟨⟨index, i⟩, -, rfl⟩ := List.mem_map.mp h
    exact ⟨rfl, by simp only; split <;> rfl⟩

/-- **What a step does to the table**, and the writes it applies. -/
inductive Effect (db : Database) : List Applied → Database → Prop
  | quiet {db' : Database} : db'.rows = db.rows → db'.nextRow = db.nextRow → Effect db [] db'
  | inserted {jobs : List Job} : (∀ job ∈ jobs, Fresh job) → Effect db [] (db.insertJobs jobs)
  | regrouped (rowId : ℕ) (group : Text) : Effect db [] (db.updateJobGroup rowId group)
  | rewritten {ws : List Applied} {db' : Database} : Rewrites db.rows ws db'.rows →
      db' = { db with rows := db'.rows } → Effect db ws db'

theorem Effect.legal {db db' : Database} {ws : List Applied} (h : Effect db ws db') :
    ∀ w ∈ ws, w.Legal := by
  cases h with
  | quiet | inserted | regrouped => simp
  | rewritten hrw => exact hrw.legal

/-- **The new rows** are the jobs with the next ids. -/
theorem insertJobs_rows (db : Database) (jobs : List Job) :
    ∃ new, (db.insertJobs jobs).rows = db.rows ++ new ∧
    new.map (·.rowId) = (List.range jobs.length).map (db.nextRow + ·) ∧
    ∀ row ∈ new, ∃ job ∈ jobs, ∃ i < jobs.length, row = { job with rowId := db.nextRow + i } := by
  refine ⟨_, rfl, ?_, fun row hrow => ?_⟩
  · rw [List.map_map, List.range_eq_range', ← List.zipIdx_map_snd 0 jobs, List.map_map]
    rfl
  · obtain ⟨⟨job, i⟩, hmem, rfl⟩ := List.mem_map.mp hrow
    obtain ⟨-, hlt, hjob⟩ := List.mem_zipIdx hmem
    exact ⟨job, by rw [hjob]; exact List.getElem_mem _, i, by omega, rfl⟩

theorem mem_insertJobs {db : Database} {jobs : List Job} {row : Job}
    (h : row ∈ (db.insertJobs jobs).rows) :
    row ∈ db.rows ∨ ∃ job ∈ jobs, ∃ i < jobs.length, row =
        { job with rowId := db.nextRow + i } := by
  obtain ⟨new, hrows, -, hnew⟩ := insertJobs_rows db jobs
  rw [hrows] at h
  exact (List.mem_append.mp h).imp_right (hnew row)

theorem map_fixed_updateJobGroup (db : Database) (rowId : ℕ) (group : Text) :
    (db.updateJobGroup rowId group).rows.map Job.fixed = db.rows.map Job.fixed := by
  rw [Database.updateJobGroup, List.map_map]
  refine List.map_congr_left fun row _ => ?_
  simp only [Function.comp_apply]
  split <;> rfl

/-- **A row that was there is there**, with all that is fixed. -/
theorem Effect.copied {db db' : Database} {ws : List Applied}
    (h : Effect db ws db') (hsane : db.Sane)
    {job : Job} (hjob : db.Copied job) : db'.Copied job := by
  cases h with
  | quiet hrows => rw [Database.Copied, hrows]; exact hjob
  | inserted =>
    rw [Database.Copied, Database.insertJobs, List.map_append]; exact List.mem_append_left _ hjob
  | regrouped => rw [Database.Copied, map_fixed_updateJobGroup]; exact hjob
  | rewritten hrw => rw [Database.Copied, hrw.fixed hsane.keyed.nodup]; exact hjob

theorem Effect.sane {db db' : Database} {ws : List Applied} (h : Effect db ws db')
    (hsane : db.Sane) :
    db'.Sane := by
  cases h with
  | quiet hrows hnext => exact hsane.of_fixed (by rw [hrows]) hnext
  | regrouped => exact hsane.of_fixed (map_fixed_updateJobGroup _ _ _) rfl
  | rewritten hrw hdb => exact hsane.of_fixed (hrw.fixed hsane.keyed.nodup) (by rw [hdb])
  | @inserted jobs hfresh =>
    refine ⟨⟨?_, fun row hrow => ?_⟩, fun row hrow => ?_⟩
    · obtain ⟨new, hrows, hids, -⟩ := insertJobs_rows db jobs
      rw [hrows, List.map_append, hids, List.nodup_append]
      refine ⟨hsane.keyed.nodup, (List.nodup_range).map (add_right_injective _),
        fun a ha b hb => ?_⟩
      obtain ⟨row, hrow, rfl⟩ := List.mem_map.mp ha
      obtain ⟨i, -, rfl⟩ := List.mem_map.mp hb
      have := hsane.keyed.lt row hrow
      omega
    · rcases mem_insertJobs hrow with hold | ⟨job, -, i, hi, rfl⟩
      · exact (hsane.keyed.lt row hold).trans_le (Nat.le_add_right _ _)
      · exact Nat.add_lt_add_left hi _
    · rcases mem_insertJobs hrow with hold | ⟨job, hjob, i, -, rfl⟩
      · exact hsane.planned row hold
      · exact (hfresh job hjob).planned

/-! ## The copies of the processes -/

def Task.Backed (db : Database) : Task → Prop
  | .submitting _ => True
  | .inserting jobs => ∀ job ∈ jobs, Fresh job
  | .collecting _ targets | .writing _ _ targets => ∀ job ∈ targets, db.Copied job

def Phase.Backed (db : Database) : Phase → Prop
  | .idle | .counting _ | .ordering _ _ => True
  | .transiting _ active => ∀ job ∈ active, db.Copied job ∧ job.stat.isActive = true
  | .dispatching _ _ pend => ∀ job ∈ pend, db.Copied job ∧ job.stat = .pend

/-- **Every process works on copies of rows**, read in the states it asked for. -/
structure Coherent (s : MockState) : Prop where
  sane : s.db.Sane
  clients : ∀ c ∈ s.clients, c.task.Backed s.db
  schedulers : ∀ sc ∈ s.schedulers, sc.phase.Backed s.db

theorem Task.Backed.mono {db db' : Database} (h : ∀ job, db.Copied job → db'.Copied job) {t : Task}
    (ht : t.Backed db) : t.Backed db' := by
  cases t with
  | submitting => trivial
  | inserting => exact ht
  | collecting | writing => exact fun job hjob => h job (ht job hjob)

theorem Phase.Backed.mono {db db' : Database}
    (h : ∀ job, db.Copied job → db'.Copied job) {p : Phase}
    (hp : p.Backed db) : p.Backed db' := by
  cases p with
  | idle | counting | ordering => trivial
  | transiting | dispatching => exact fun job hjob => ⟨h job (hp job hjob).1, (hp job hjob).2⟩

/-! ## Steps -/

section Steps

variable {cl : Cluster} {db db' : Database} {ws : List Applied}

/-- **The step of a client**: its effect, and what it goes on with. -/
theorem ClientStep.effect {c : Client} {a : ClientAct} {cs : List Client} (hsane : db.Sane)
    (hc : c.task.Backed db) (h : ClientStep db c a db' cs ws) :
    Effect db ws db' ∧ ∀ c' ∈ cs, c'.task.Backed db' := by
  cases h with
  | stop => exact ⟨.quiet rfl rfl, by simp⟩
  | issue now plan =>
    exact ⟨.quiet rfl rfl, List.forall_mem_singleton.mpr fun _ hjob => fresh_of_buildJobs hjob⟩
  | query select htask =>
    rw [htask] at hc
    refine ⟨.quiet rfl rfl, List.forall_mem_singleton.mpr fun job hjob => ?_⟩
    rcases List.mem_append.mp hjob with hold | hnew
    · exact hc job hold
    · exact Database.copied_of_mem (List.mem_of_mem_filter (List.mem_of_mem_filter hnew))
  | begin now htask =>
    rw [htask] at hc
    exact ⟨.quiet rfl rfl, List.forall_mem_singleton.mpr hc⟩
  | log => exact ⟨.quiet rfl rfl, List.forall_mem_singleton.mpr (hc.mono fun _ hjob => hjob)⟩
  | insert _ htask =>
    rw [htask] at hc
    exact ⟨.inserted hc, List.forall_mem_singleton.mpr fun _ hjob => absurd hjob List.not_mem_nil⟩
  | @regroup group now j targets _ htask =>
    rw [htask] at hc
    have heffect : Effect db [] (db.updateJobGroup j.rowId group) := .regrouped _ _
    exact ⟨heffect, List.forall_mem_singleton.mpr fun job hjob =>
      heffect.copied hsane (hc job (List.mem_cons_of_mem _ hjob))⟩
  | skip _ htask =>
    rw [htask] at hc
    exact ⟨.quiet rfl rfl, List.forall_mem_singleton.mpr fun job hjob =>
      hc job (List.mem_cons_of_mem _ hjob)⟩
  | @write cmd now j targets w _ _ _ htask hw hup =>
    rw [htask] at hc
    have hcopy : db.Copied w.job := by
      rw [Database.Copied, Cmd.write_fixed hw]
      exact hc j List.mem_cons_self
    obtain ⟨hrw, hdb, -⟩ := updateIfStatIn_moves hsane hcopy (fun _ => Cmd.write_legal hw) hup
    have heffect : Effect db _ db' := .rewritten hrw hdb
    exact ⟨heffect, List.forall_mem_singleton.mpr fun job hjob =>
      heffect.copied hsane (hc job (List.mem_cons_of_mem _ hjob))⟩

theorem proposals_of_transitions {now : ℚ} {active : List Job}
    (h : ∀ job ∈ active, db.Copied job ∧ job.stat.isActive = true) :
    ∀ p ∈ transitions now active, db.Copied p.2 ∧ Proposal (transitionEvent now) p := by
  intro p hp
  obtain ⟨job, hjob, hmap⟩ := List.mem_filterMap.mp hp
  obtain ⟨j', htrans, rfl⟩ := Option.map_eq_some_iff.mp hmap
  exact ⟨(h job hjob).1, proposal_transition htrans (h job hjob).2⟩

/-- What is dispatched was pending. -/
theorem mem_dispatches {now : ℚ} {used : Text → ℕ} {arrays : ℕ → ℕ}
    {dispatched : ℕ} {pend : List Job}
    {p : Job × Job} (h : p ∈ dispatches cl now used arrays dispatched pend) :
    p.2 ∈ pend ∧ ∃ host, p.1 = dispatch now host p.2 := by
  induction pend generalizing used arrays dispatched with
  | nil => cases h
  | cons j pend ih =>
    rw [dispatches] at h
    split at h
    · cases h
    split at h
    · exact (ih h).imp_left (List.mem_cons_of_mem _)
    split at h
    · exact (ih h).imp_left (List.mem_cons_of_mem _)
    split at h
    · exact (ih h).imp_left (List.mem_cons_of_mem _)
    case h_2 host _ =>
      rcases List.mem_cons.mp h with rfl | h
      · exact ⟨List.mem_cons_self, host, rfl⟩
      · exact (ih h).imp_left (List.mem_cons_of_mem _)

theorem proposals_of_dispatches {now : ℚ} {used : Text → ℕ} {arrays : ℕ → ℕ} {dispatched : ℕ}
    {pend : List Job} (h : ∀ job ∈ pend, db.Copied job ∧ job.stat = .pend) :
    ∀ p ∈ dispatches cl now used arrays dispatched pend,
      db.Copied p.2 ∧ Proposal (transitionEvent now) p := by
  intro p hp
  obtain ⟨job, prev⟩ := p
  obtain ⟨hmem, host, heq⟩ : prev ∈ pend ∧ ∃ host, job = dispatch now host prev := mem_dispatches hp
  obtain rfl := heq
  exact ⟨(h prev hmem).1, proposal_dispatch now host (h prev hmem).2⟩

/-- **The step of a scheduler**: its effect, and what it goes on with. -/
theorem SchedulerStep.effect {sc sc' : Scheduler} {a : SchedulerAct} (hsane : db.Sane)
    (hsc : sc.phase.Backed db) (h : SchedulerStep cl db sc a db' sc' ws) :
    Effect db ws db' ∧ sc'.phase.Backed db' := by
  cases h with
  | abort => exact ⟨.quiet rfl rfl, trivial⟩
  | tick now =>
    refine ⟨.quiet rfl rfl, fun job hjob => ?_⟩
    obtain ⟨hmem, hstat⟩ := mem_jobsInStates hjob
    refine ⟨Database.copied_of_mem hmem, ?_⟩
    simp only [activeStates, List.mem_cons, List.not_mem_nil, or_false] at hstat
    rcases hstat with h | h | h <;> rw [h] <;> rfl
  | log => exact ⟨.quiet rfl rfl, hsc.mono fun _ hjob => hjob⟩
  | transit _ hphase hup =>
    rw [hphase] at hsc
    obtain ⟨hrw, hdb, -⟩ := updateGuardedMany_moves hsane (proposals_of_transitions hsc) hup
    exact ⟨.rewritten hrw hdb, trivial⟩
  | count => exact ⟨.quiet rfl rfl, trivial⟩
  | order =>
    refine ⟨.quiet rfl rfl, fun job hjob => ?_⟩
    obtain ⟨hmem, hstat⟩ := mem_jobsInStates ((List.perm_insertionSort _ _).mem_iff.mp hjob)
    exact ⟨Database.copied_of_mem hmem, List.mem_singleton.mp hstat⟩
  | dispatch _ hphase hup =>
    rw [hphase] at hsc
    obtain ⟨hrw, hdb, -⟩ := updateGuardedMany_moves hsane (proposals_of_dispatches hsc) hup
    exact ⟨.rewritten hrw hdb, trivial⟩

/-- **What any step does to the table**, and that the copies stay copies. -/
theorem effect_of_step {firstJobId n : ℕ} {s s' : MockState} {a : Act} (h : Coherent s)
    (hstep : (mock cl firstJobId n).step s a = some s') :
    Coherent s' ∧ ∃ ws, s'.writes = s.writes ++ ws ∧ Effect s.db ws s'.db := by
  obtain ⟨c, rfl, -, hc⟩ | ⟨i, act, c, db', cs, ws, -, hi, hcs, rfl⟩ |
    ⟨i, act, sc, db', sc', ws, -, hi, hscs, rfl⟩ := mock_cases hstep
  · refine ⟨⟨h.sane, fun c' hc' => ?_, h.schedulers⟩, [], (List.append_nil _).symm, .quiet rfl rfl⟩
    rcases List.mem_append.mp hc' with hold | hnew
    · exact h.clients c' hold
    · obtain rfl := List.mem_singleton.mp hnew
      obtain ⟨request, htask⟩ | ⟨cmd, htask⟩ := hc
      · rw [htask]
        trivial
      · rw [htask]
        exact fun _ hjob => absurd hjob List.not_mem_nil
  · obtain ⟨heffect, hbacked⟩ := hcs.effect h.sane (h.clients c (List.mem_of_getElem? hi))
    have hcopy : ∀ job, s.db.Copied job → db'.Copied job := fun job => heffect.copied h.sane
    refine ⟨⟨heffect.sane h.sane, fun c' hc' => ?_, fun sc hsc => (h.schedulers sc hsc).mono hcopy⟩,
      ws, rfl, heffect⟩
    rcases mem_replaceAt hc' with hold | hnew
    · exact (h.clients c' hold).mono hcopy
    · exact hbacked c' hnew
  · obtain ⟨heffect, hbacked⟩ := hscs.effect h.sane (h.schedulers sc (List.mem_of_getElem? hi))
    have hcopy : ∀ job, s.db.Copied job → db'.Copied job := fun job => heffect.copied h.sane
    refine ⟨⟨heffect.sane h.sane, fun c hc => (h.clients c hc).mono hcopy, fun sc₂ hsc₂ => ?_⟩,
      ws, rfl, heffect⟩
    rcases mem_replaceAt hsc₂ with hold | hnew
    · exact (h.schedulers sc₂ hold).mono hcopy
    · obtain rfl := List.mem_singleton.mp hnew
      exact hbacked

end Steps

theorem coherent_init {cl : Cluster} {firstJobId n : ℕ} {s : MockState}
    (h : (mock cl firstJobId n).init s) : Coherent s := by
  obtain rfl : s = _ := h
  refine ⟨⟨⟨List.nodup_nil, by simp⟩, by simp⟩, by simp, fun sc hsc => ?_⟩
  rw [List.eq_of_mem_replicate hsc]
  trivial

theorem coherent_of_reachable {cl : Cluster} {firstJobId n : ℕ} {C : MockState → Act → Prop}
    {s : MockState} (h : (mock cl firstJobId n).ReachableUnder C s) : Coherent s :=
  h.invariant (fun _ => coherent_init) fun _ _ _ _ hco _ hstep => (effect_of_step hco hstep).1

end Lsfmgr.Mock
