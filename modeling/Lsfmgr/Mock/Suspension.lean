import Mathlib
import Lsfmgr.Mock.Life

/-!
# Mock/Suspension — the time a job is suspended by its user is added to its end

`bresume` adds the time from the suspension it has read to the end it has read, and its write is
guarded by the state alone.  When the job was resumed and stopped again in between, the state is
what it was and both times are not: the time it ran in between is added to its end.  Along the runs
in which this does not happen (`Current`) the end of a job is what its plan and its suspensions say.
-/

namespace Lsfmgr.Mock

open Machinery
open Command (Text)

/-! ## Suspensions in the history -/

/-- A write to the row: it may begin a suspension by the user, and end one. -/
def countWrite (rowId : ℕ) (acc : ℚ × Option ℚ) (w : Applied) : ℚ × Option ℚ :=
  if w.after.rowId ≠ rowId then acc
  else if w.after.stat = .ususp then (acc.1, some w.event.ts)
  else if w.before.stat = .ususp ∧ w.after.stat = .run then
    (acc.1 + (acc.2.elim 0 fun since => w.event.ts - since), none)
  else (acc.1, none)

/-- The total length of the suspensions of a row that are over, and the beginning of the one that is
not. -/
def suspensions (rowId : ℕ) (writes : List Applied) : ℚ × Option ℚ :=
  writes.foldl (countWrite rowId) (0, none)

theorem suspensions_append (rowId : ℕ) (writes : List Applied) (w : Applied) :
    suspensions rowId (writes ++ [w]) = countWrite rowId (suspensions rowId writes) w := by
  rw [suspensions, List.foldl_append]
  rfl

/-- The writes to other rows do not count. -/
theorem suspensions_of_ne {rowId : ℕ} {writes : List Applied}
    (h : ∀ w ∈ writes, w.after.rowId ≠ rowId) :
    suspensions rowId writes = (0, none) := by
  induction writes using List.reverseRecOn with
  | nil => rfl
  | append_singleton writes w ih =>
    rw [List.forall_mem_append] at h
    rw [suspensions_append, ih h.1, countWrite, if_pos (h.2 w (List.mem_singleton_self w))]

/-- **The end of a job is the end of its plan, put off by the suspensions that are over.** -/
def Conserved (writes : List Applied) (row : Job) : Prop :=
  ∃ start, row.startTime = some start ∧
    row.finishTime = some (start + row.runSecs + row.suspendSecs + (suspensions row.rowId writes).1)

/-- What holds of a row in each of its states. -/
def Accounted (writes : List Applied) (row : Job) : Prop :=
  match row.stat with
  | .pend | .psusp => suspensions row.rowId writes = (0, none)
  | .run | .ssusp => Conserved writes row ∧ (suspensions row.rowId writes).2 = none
  | .ususp => Conserved writes row ∧ (suspensions row.rowId writes).2 = some row.suspSince
  | .done | .exit => True

/-- The write ends a suspension with the end of the job put off by its length. -/
def Fair (w : Applied) : Prop :=
  w.before.stat = .ususp → w.after.stat = .run →
    w.after.finishTime = w.before.finishTime.map (· + (w.event.ts - w.before.suspSince))

/-! ## One write -/

section Write

variable {writes : List Applied} {w : Applied}

/-- The times of the row are what they were, and so is the total. -/
theorem Conserved.same {writes' : List Applied} {row row' : Job} (h : Conserved writes row)
    (hfixed : row'.fixed = row.fixed) (hstart : row'.startTime = row.startTime)
    (hfinish : row'.finishTime = row.finishTime)
    (htotal : (suspensions row'.rowId writes').1 = (suspensions row.rowId writes).1) :
    Conserved writes' row' := by
  obtain ⟨start, hs, hf⟩ := h
  have hrun : row'.runSecs = row.runSecs := congrArg (·.runSecs) hfixed
  have hsusp : row'.suspendSecs = row.suspendSecs := congrArg (·.suspendSecs) hfixed
  exact ⟨start, by rw [hstart, hs], by rw [hfinish, hf, hrun, hsusp, htotal]⟩

/-- The count after a write to the row. -/
theorem suspensions_write (row row' : Job) (e : Event) (h : row'.rowId = row.rowId) :
    suspensions row'.rowId (writes ++ [⟨row, row', e⟩])
      = if row'.stat = .ususp then ((suspensions row.rowId writes).1, some e.ts)
        else if row.stat = .ususp ∧ row'.stat = .run then
          ((suspensions row.rowId writes).1
            + ((suspensions row.rowId writes).2.elim 0 fun since => e.ts - since), none)
        else ((suspensions row.rowId writes).1, none) := by
  rw [suspensions_append, countWrite, if_neg (not_not.mpr rfl), h]

/-- **A move keeps the account of its row.** -/
theorem Accounted.write {row row' : Job} {e : Event} (h : Accounted writes row)
    (hlegal : Move row e.ts row' e.kind) (hplanned : row.plannedOutcome.isFinished = true)
    (hfair : Fair ⟨row, row', e⟩) : Accounted (writes ++ [⟨row, row', e⟩]) row' := by
  have hcount := @suspensions_write writes row row' e (rowId_of_fixed hlegal.fixed)
  have hfixed := hlegal.fixed
  rw [Accounted] at h
  generalize e.kind = kind at hlegal
  cases hlegal with
  | kill => trivial
  | stop hstat =>
    have hacc : Conserved writes row ∧ (suspensions row.rowId writes).2 = none := by
      rcases hstat with heq | heq <;> rw [heq] at h <;> exact h
    rw [if_pos rfl] at hcount
    exact ⟨hacc.1.same hfixed rfl rfl (by rw [hcount]), by rw [hcount]⟩
  | stopPending hstat =>
    rw [hstat] at h
    have hzero : suspensions row.rowId writes = (0, none) := h
    rw [if_neg (by simp), if_neg (by simp), hzero] at hcount
    exact hcount
  | resume finishTime hstat =>
    rw [hstat] at h
    obtain ⟨⟨start, hs, hf⟩, hsince⟩ : Conserved writes row ∧ _ := h
    have hfinish : finishTime = row.finishTime.map (· + (e.ts - row.suspSince)) := hfair hstat rfl
    rw [if_neg (by simp), if_pos ⟨hstat, rfl⟩, hsince] at hcount
    refine ⟨⟨start, hs, ?_⟩, by rw [hcount]⟩
    calc finishTime = some (start + row.runSecs + row.suspendSecs + (suspensions row.rowId writes).1
            + (e.ts - row.suspSince)) := by rw [hfinish, hf, Option.map_some]
      _ = some (start + row.runSecs + row.suspendSecs + ((suspensions row.rowId writes).1
            + (e.ts - row.suspSince))) := by rw [add_assoc]
      _ = _ := congrArg (fun total => some (start + row.runSecs + row.suspendSecs + total))
            (congrArg Prod.fst hcount).symm
  | resumePending pendSecs hstat =>
    rw [hstat] at h
    have hzero : suspensions row.rowId writes = (0, none) := h
    rw [if_neg (by simp), if_neg (by simp [hstat]), hzero] at hcount
    exact hcount
  | finish =>
    rw [Accounted]
    rcases finished_cases hplanned with heq | heq <;> rw [heq] <;> trivial
  | systemStop hstat =>
    rw [hstat] at h
    have hacc : Conserved writes row ∧ (suspensions row.rowId writes).2 = none := h
    rw [if_neg (by simp), if_neg (by simp)] at hcount
    exact ⟨hacc.1.same hfixed rfl rfl (by rw [hcount]), by rw [hcount]⟩
  | systemResume hstat =>
    rw [hstat] at h
    have hacc : Conserved writes row ∧ (suspensions row.rowId writes).2 = none := h
    rw [if_neg (by simp), if_neg (by simp [hstat])] at hcount
    exact ⟨hacc.1.same hfixed rfl rfl (by rw [hcount]), by rw [hcount]⟩
  | dispatch host hstat =>
    rw [hstat] at h
    have hzero : suspensions row.rowId writes = (0, none) := h
    rw [if_neg (by simp), if_neg (by simp [hstat]), hzero] at hcount
    simp only at hcount
    exact ⟨⟨e.ts, rfl, by simp [hcount]⟩, by rw [hcount]⟩

theorem Accounted.congr {writes' : List Applied} {row row' : Job} (h : Accounted writes row)
    (hfixed : row'.fixed = row.fixed) (hstat : row'.stat = row.stat)
    (hstart : row'.startTime = row.startTime)
    (hfinish : row'.finishTime = row.finishTime) (hsince : row'.suspSince = row.suspSince)
    (hcount : suspensions row.rowId writes' = suspensions row.rowId writes) :
    Accounted writes' row' := by
  have hcount' : suspensions row'.rowId writes' = suspensions row.rowId writes := by
    rw [rowId_of_fixed hfixed, hcount]
  rw [Accounted] at h ⊢
  rw [hstat]
  split at h
  case h_1 | h_2 => rwa [hcount']
  case h_3 | h_4 => exact ⟨h.1.same hfixed hstart hfinish (by rw [hcount']), by rw [hcount', h.2]⟩
  case h_5 => exact ⟨h.1.same hfixed hstart hfinish (by rw [hcount']), by rw [hcount', h.2, hsince]⟩
  case h_6 | h_7 => trivial

end Write

/-! ## One step -/

/-- **Fair rewriting keeps the accounts.** -/
theorem Rewrites.accounted {rows rows' : List Job} {ws writes : List Applied}
    (h : Rewrites rows ws rows')
    (hnodup : (rows.map (·.rowId)).Nodup)
    (hplanned : ∀ row ∈ rows, row.plannedOutcome.isFinished = true)
    (hfair : ∀ w ∈ ws, Fair w) (hacc : ∀ row ∈ rows, Accounted writes row) :
    ∀ row ∈ rows', Accounted (writes ++ ws) row := by
  induction h generalizing writes with
  | nil => rwa [List.append_nil]
  | @cons rows rows' w ws hmem hlegal _ ih =>
    rw [List.forall_mem_cons] at hfair
    have hfixed := map_fixed_replaceRow hmem hnodup hlegal.fixed
    have hid : w.after.rowId = w.before.rowId := rowId_of_fixed hlegal.fixed
    have hrow : ∀ row ∈ replaceRow rows w.after, row = w.after ∨ row ∈ rows ∧
        w.after.rowId ≠ row.rowId := by
      intro row hrow
      obtain ⟨row₀, hrow₀, rfl⟩ := List.mem_map.mp hrow
      split
      case isTrue => exact .inl rfl
      case isFalse hne => exact .inr ⟨hrow₀, Ne.symm hne⟩
    rw [← List.singleton_append, ← List.append_assoc]
    refine ih (by rwa [map_rowId_of_fixed hfixed]) (fun row hin => ?_) hfair.2 fun row hin => ?_
    · rcases hrow row hin with rfl | ⟨hold, -⟩
      · rw [show w.after.plannedOutcome = w.before.plannedOutcome from congrArg
          (·.plannedOutcome) hlegal.fixed]
        exact hplanned _ hmem
      · exact hplanned row hold
    · rcases hrow row hin with rfl | ⟨hold, hne⟩
      · exact (hacc _ hmem).write hlegal.move (hplanned _ hmem) hfair.1
      · refine (hacc row hold).congr rfl rfl rfl rfl rfl ?_
        rw [suspensions_append, countWrite, if_pos hne]

/-- **Every row is accounted for**, and every write is about a row that was inserted. -/
structure Balanced (s : MockState) : Prop where
  accounted : ∀ row ∈ s.db.rows, Accounted s.writes row
  known : ∀ w ∈ s.writes, w.after.rowId < s.db.nextRow

theorem Rewrites.known {rows rows' : List Job} {ws : List Applied} {bound : ℕ}
    (h : Rewrites rows ws rows')
    (hnodup : (rows.map (·.rowId)).Nodup) (hlt : ∀ row ∈ rows, row.rowId < bound) :
    ∀ w ∈ ws, w.after.rowId < bound := by
  induction h with
  | nil => simp
  | @cons rows rows' w ws hmem hlegal _ ih =>
    have hfixed := map_rowId_of_fixed (map_fixed_replaceRow hmem hnodup hlegal.fixed)
    refine List.forall_mem_cons.mpr ⟨?_, ih (by rwa [hfixed]) fun row hrow => ?_⟩
    · rw [rowId_of_fixed hlegal.fixed]
      exact hlt _ hmem
    · have hin : row.rowId ∈ rows.map (·.rowId) := by
        rw [← hfixed]
        exact List.mem_map_of_mem hrow
      obtain ⟨row₀, hrow₀, heq⟩ := List.mem_map.mp hin
      rw [← heq]
      exact hlt row₀ hrow₀

theorem Balanced.effect {s s' : MockState} {ws : List Applied} (h : Balanced s) (hsane : s.db.Sane)
    (hwrites : s'.writes = s.writes ++ ws) (heffect : Effect s.db ws s'.db)
    (hfair : ∀ w ∈ ws, Fair w) :
    Balanced s' := by
  generalize hdb : s'.db = db' at heffect
  cases heffect with
  | quiet hrows hnext =>
    rw [List.append_nil] at hwrites
    exact ⟨by rw [hdb, hrows, hwrites]; exact h.accounted,
      by rw [hdb, hnext, hwrites]; exact h.known⟩
  | regrouped =>
    rw [List.append_nil] at hwrites
    refine ⟨?_, by rw [hdb, hwrites]; exact h.known⟩
    rw [hdb, hwrites]
    intro row' hrow'
    obtain ⟨row, hrow, rfl⟩ := List.mem_map.mp hrow'
    split
    · exact (h.accounted row hrow).congr rfl rfl rfl rfl rfl rfl
    · exact h.accounted row hrow
  | rewritten hrw hdb' =>
    refine ⟨?_, ?_⟩
    · rw [hdb, hwrites]
      exact hrw.accounted hsane.keyed.nodup hsane.planned hfair h.accounted
    · rw [hdb, hwrites, hdb']
      exact List.forall_mem_append.mpr ⟨h.known, hrw.known hsane.keyed.nodup hsane.keyed.lt⟩
  | inserted hfresh =>
    rw [List.append_nil] at hwrites
    refine ⟨?_, ?_⟩
    · rw [hdb, hwrites]
      intro row hrow
      rcases mem_insertJobs hrow with hold | ⟨job, hjob, i, -, rfl⟩
      · exact h.accounted row hold
      · -- no write was about a row that was not there
        have hnone : suspensions (s.db.nextRow + i) s.writes = (0, none) :=
          suspensions_of_ne fun w hw => (Nat.lt_add_right i (h.known w hw)).ne
        simp only [Accounted, (hfresh job hjob).pend, hnone]
    · rw [hdb, hwrites]
      exact fun w hw => (h.known w hw).trans_le (Nat.le_add_right _ _)

/-! ## Resuming -/

/-- From the beginning of the suspension to the end of the job it is in the row as long as it was in
the copy; and neither time is 0, which counts as none. -/
def fits (copy row : Job) : Bool :=
  match copy.finishTime, row.finishTime with
  | some f, some g => f ≠ 0 && copy.suspSince ≠ 0 && f - copy.suspSince = g - row.suspSince
  | _, _ => false

theorem fits_iff {copy row : Job} : fits copy row = true ↔
    ∃ f g, copy.finishTime = some f ∧ row.finishTime = some g ∧ f ≠ 0 ∧ copy.suspSince ≠ 0 ∧
      f - copy.suspSince = g - row.suspSince := by
  rw [fits]
  split
  case h_1 f g hf hg => simp [hf, hg, and_assoc]
  case h_2 hnone =>
    refine ⟨fun h => (by cases h), ?_⟩
    rintro ⟨f, g, hf, hg, -⟩
    exact absurd hg (hnone f g hf)

/-- **The end that is written** puts off the end of the row by the suspension of the row exactly if
the copy fits the row. -/
theorem resumedFinish_eq_iff {copy row : Job} (now : ℚ) {f g : ℚ} (hf : copy.finishTime = some f)
    (hg : row.finishTime = some g) (hf0 : f ≠ 0) (hs0 : copy.suspSince ≠ 0) :
    resumedFinish now copy = row.finishTime.map (· + (now - row.suspSince)) ↔
        fits copy row = true := by
  have htruthy : truthy copy.finishTime = some f := by simp [truthy, hf, hf0]
  have hfits : fits copy row = true ↔ f - copy.suspSince = g - row.suspSince := by
    rw [fits_iff]
    simp [hf, hg, hf0, hs0]
  rw [hfits, resumedFinish, htruthy, hg, Option.map_some]
  simp only [hs0, ne_eq, not_false_eq_true, if_true, Option.some.injEq]
  constructor
  · intro h
    linarith
  · intro h
    linarith

/-- The step is no resumption of a row whose copy does not fit it. -/
def current (s : MockState) : Act → Bool
  | .client i .next =>
    match s.clients[i]? with
    | some ⟨.writing .bresume _ (j :: _), []⟩ =>
      j.stat ≠ .ususp || s.db.rows.all fun row => row.rowId ≠ j.rowId || row.stat ≠
        .ususp || fits j row
    | _ => true
  | _ => true

/-- What the condition says of a resumption. -/
theorem fits_of_current {s : MockState} {i : ℕ} {c : Client} {now : ℚ} {j : Job}
    {targets : List Job}
    (h : current s (.client i .next) = true) (hc : s.clients[i]? = some c) (hlog : c.log = [])
    (htask : c.task = .writing .bresume now (j :: targets)) (hj : j.stat = .ususp) {row : Job}
    (hrow : row ∈ s.db.rows) (hid : row.rowId = j.rowId) (hstat : row.stat = .ususp) :
    fits j row = true := by
  obtain ⟨task, log⟩ := c
  obtain rfl := htask
  obtain rfl := hlog
  simp only [current, hc, hj, ne_eq, not_true_eq_false, decide_false, Bool.false_or,
    List.all_eq_true] at h
  simpa [hid, hstat] using h row hrow

/-- Only `bresume` makes a suspended job run, with the end it has computed from its copy. -/
theorem Cmd.write_resume {cmd : Cmd} {now : ℚ} {j row : Job} {w : Write}
    (h : cmd.write now j = some w)
    (hallowed : Stat.ususp ∈ w.allowed) (hafter : (assignAll w.columns w.job row).stat = .run) :
    cmd = .bresume ∧ j.stat = .ususp ∧ w.event.ts = now ∧
      (assignAll w.columns w.job row).finishTime = resumedFinish now j := by
  rcases cmd with cluster | - | - | group
  · simp only [Cmd.write, bkillWrite] at h
    split at h <;> cases h
    cases hafter
  · simp only [Cmd.write, bstopWrite] at h
    split at h <;> cases h <;> simp at hallowed
  · simp only [Cmd.write, bresumeWrite] at h
    split at h
    case h_1 hstat =>
      cases h
      exact ⟨rfl, hstat, rfl, rfl⟩
    case h_2 =>
      cases h
      simp at hallowed
    case h_3 => cases h
  · cases h

/-- **The write of a client is fair** if it is current. -/
theorem ClientStep.fair {s : MockState} {i : ℕ} {c : Client} {a : ClientAct} {db' : Database}
    {cs : List Client} {ws : List Applied} (h : ClientStep s.db c a db' cs ws) (hsane : s.db.Sane)
    (hbacked : c.task.Backed s.db) (hc : s.clients[i]? = some c)
    (hcurrent : current s (.client i a) = true) :
    ∀ w ∈ ws, Fair w := by
  cases h with
  | stop | issue | query | begin | log | insert | regroup | skip => simp
  | @write cmd now j targets w _ applied hlog htask hw hup =>
    rw [htask] at hbacked
    have hcopy : s.db.Copied w.job := by
      rw [Database.Copied, Cmd.write_fixed hw]
      exact hbacked j List.mem_cons_self
    obtain ⟨-, -, happlied⟩ := updateIfStatIn_moves hsane hcopy (fun _ => Cmd.write_legal hw) hup
    intro w' hw' hbefore hafter
    obtain ⟨hmem, hfixed, hallowed, heq, hevent⟩ := happlied w' (Option.mem_toList.mp hw')
    rw [hbefore] at hallowed
    rw [heq] at hafter
    obtain ⟨rfl, hj, hts, hfinish⟩ := Cmd.write_resume hw hallowed hafter
    have hid : w'.before.rowId = j.rowId := rowId_of_fixed (hfixed.trans (Cmd.write_fixed hw))
    have hfits := fits_of_current hcurrent hc hlog htask hj hmem hid hbefore
    obtain ⟨f, g, hf, hg, hf0, hs0, -⟩ := fits_iff.mp hfits
    rw [heq, hfinish, hevent, hts]
    exact (resumedFinish_eq_iff now hf hg hf0 hs0).mpr hfits

/-- **The writes of a scheduler are fair**: it leaves alone what its user has suspended. -/
theorem SchedulerStep.fair {cl : Cluster} {db db' : Database} {sc sc' : Scheduler}
    {a : SchedulerAct}
    {ws : List Applied} (h : SchedulerStep cl db sc a db' sc' ws) (hsane : db.Sane)
    (hbacked : sc.phase.Backed db) : ∀ w ∈ ws, Fair w := by
  have hall {event : Job × Job → Event} {pairs pairs' : List (Job × Job)}
    (hsub : pairs'.Sublist pairs)
      (hpairs : ∀ p ∈ pairs, p.2.stat ≠ .ususp) (hws : List.Forall₂ (Written event) pairs' ws) :
      ∀ w ∈ ws, Fair w := by
    intro w hw hbefore
    obtain ⟨p, hp, hwritten⟩ := pair_of_written hws hw
    rw [hwritten.before] at hbefore
    exact absurd hbefore (hpairs p (hsub.subset hp))
  cases h with
  | abort | tick | log | count | order => simp
  | transit _ hphase hup =>
    rw [hphase] at hbacked
    obtain ⟨-, -, pairs', hsub, hws⟩ :=
      updateGuardedMany_moves hsane (proposals_of_transitions hbacked) hup
    refine hall hsub (fun p hp hstat => ?_) hws
    obtain ⟨job, -, hmap⟩ := List.mem_filterMap.mp hp
    obtain ⟨j', htrans, rfl⟩ := Option.map_eq_some_iff.mp hmap
    rw [transition, if_pos hstat] at htrans
    cases htrans
  | dispatch _ hphase hup =>
    rw [hphase] at hbacked
    obtain ⟨-, -, pairs', hsub, hws⟩ :=
      updateGuardedMany_moves hsane (proposals_of_dispatches hbacked) hup
    refine hall hsub (fun p hp hstat => ?_) hws
    rw [(hbacked p.2 (mem_dispatches hp).1).2] at hstat
    cases hstat

/-! ## Runs -/

section Runs

variable {cl : Cluster} {firstJobId n : ℕ}

theorem balanced_step {s s' : MockState} {a : Act} (hco : Coherent s) (h : Balanced s)
    (hcurrent : current s a = true) (hstep : (mock cl firstJobId n).step s a = some s') :
    Balanced s' := by
  obtain ⟨c, rfl, -, -⟩ | ⟨i, act, c, db', cs, ws, rfl, hi, hcs, rfl⟩ |
    ⟨i, act, sc, db', sc', ws, -, hi, hscs, rfl⟩ := mock_cases hstep
  · exact ⟨h.accounted, h.known⟩
  · have hbacked := hco.clients c (List.mem_of_getElem? hi)
    exact h.effect hco.sane rfl (hcs.effect hco.sane hbacked).1
      (hcs.fair hco.sane hbacked hi hcurrent)
  · have hbacked := hco.schedulers sc (List.mem_of_getElem? hi)
    exact h.effect hco.sane rfl (hscs.effect hco.sane hbacked).1 (hscs.fair hco.sane hbacked)

theorem balanced_init {s : MockState} (h : (mock cl firstJobId n).init s) : Balanced s := by
  obtain rfl : s = _ := h
  exact ⟨by simp, by simp⟩

/-- **The time a job is suspended by its user is conserved** along every run in which no resumption
is written from a copy that does not fit its row: whenever a job runs, or is suspended by the
system, its end is its start, its planned times and the length of its suspensions that are over. -/
theorem conserved_of_current (cl : Cluster) (firstJobId n : ℕ) {s : MockState}
    (hs : (mock cl firstJobId n).ReachableUnder (fun s a => current s a = true) s) :
    ∀ row ∈ s.db.rows, row.stat = .run ∨ row.stat = .ssusp → Conserved s.writes row := by
  have hbalanced : Balanced s := hs.invariant (fun _ => balanced_init) fun _ _ _ hr h hc hstep =>
    balanced_step (coherent_of_reachable hr) h hc hstep
  intro row hrow hstat
  have hacc := hbalanced.accounted row hrow
  rw [Accounted] at hacc
  rcases hstat with heq | heq <;> rw [heq] at hacc <;> exact hacc.1

end Runs

/-- A job is suspended from 20 to 30, with nothing in between. -/
def resumed : List Act :=
  submission ++ tick 11 ++ command 1 .bstop 20 ++ command 2 .bresume 30

theorem conserved_of_current_resumed :
    ∃ s, (mock oneHost 1000 1).runUnder current (start 1) resumed = some s ∧
    ∃ row ∈ s.db.rows, row.stat = .run ∧ row.finishTime = some 81 ∧ Conserved s.writes row := by
  have hrun : ((mock oneHost 1000 1).runUnder current (start 1) resumed).any
      (fun s => s.db.rows.any fun row => row.stat = .run ∧ row.finishTime = some 81) = true := by
    decide +kernel
  obtain ⟨s, hs, hrow⟩ := (Option.any_eq_true _ _).mp hrun
  simp only [List.any_eq_true, decide_eq_true_eq] at hrow
  obtain ⟨row, hmem, hstat, hfinish⟩ := hrow
  have hreach : (mock oneHost 1000 1).ReachableUnder (fun s a => current s a = true) s :=
    System.reachableUnder_of_runUnder (fun _ _ h => h) (.init rfl) hs
  exact ⟨s, hs, row, hmem, hstat, hfinish,
    conserved_of_current oneHost 1000 1 hreach row hmem (.inl hstat)⟩

/-- Two resumptions read the row while the job is suspended from 20 on.  One is written at 30, the
job is stopped again at 50, and then the other one is written, at 60. -/
def overtaken : List Act :=
  submission ++ tick 11 ++ command 1 .bstop 20 ++
    [.start .bresume, .client 2 (.query fun _ => true)] ++
    command 3 .bresume 30 ++ command 4 .bstop 50 ++
    [.client 2 (.begin 60), .client 2 .next]

/-- **The job ran for twenty seconds in between, which are added to its end**: 11 and 60 and the
twenty seconds of both suspensions are 91, and its end is at 111. -/
theorem not_conserved : ¬∀ (cl : Cluster) (firstJobId n : ℕ) (s : MockState),
    (mock cl firstJobId n).Reachable s →
    ∀ row ∈ s.db.rows, row.stat = .run ∨ row.stat = .ssusp → Conserved s.writes row := by
  intro hall
  have hrun : ((mock oneHost 1000 1).run (start 1) overtaken).any (fun s => s.db.rows.any fun row =>
      row.stat = .run ∧ row.startTime = some 11 ∧ row.finishTime = some 111 ∧ row.runSecs = 60 ∧
        row.suspendSecs = 0 ∧ (suspensions row.rowId s.writes).1 = 20) = true := by decide +kernel
  obtain ⟨s, hs, hrow⟩ := (Option.any_eq_true _ _).mp hrun
  simp only [List.any_eq_true, decide_eq_true_eq] at hrow
  obtain ⟨row, hmem, hstat, hstart, hfinish, hrunSecs, hsusp, htotal⟩ := hrow
  obtain ⟨start, hs', hf⟩ :=
    hall oneHost 1000 1 s (System.reachable_of_run (.init rfl) hs) row hmem (.inl hstat)
  obtain rfl : 11 = start := Option.some.inj (hstart.symm.trans hs')
  rw [hfinish, hrunSecs, hsusp, htotal] at hf
  norm_num at hf

end Lsfmgr.Mock
