import Mathlib
import Lsfmgr.Mock.Life

/-!
# Mock/Slots — the scheduler gives no slot away twice

A tick decides on the active jobs it has read.  Only a dispatch makes a job active, and there is one
scheduler: until its write the active jobs are at most those it has read (`Counted`), whatever the
commands do in between.  It adds what it gives away to what it has read, so the bound holds when
everything is written and when some of it is refused.
-/

namespace Lsfmgr.Mock

open Machinery
open Command (Text)

/-! ## Loads -/

/-- A quantity that depends on what is fixed of a job and on its host. -/
def Stable (w : Job → ℕ) : Prop :=
  ∀ a b : Job, a.fixed = b.fixed → a.execHost = b.execHost → w a = w b

/-- What an active job adds. -/
def share (w : Job → ℕ) (job : Job) : ℕ := if job.stat.isActive then w job else 0

/-- The quantity over the active jobs. -/
def load (w : Job → ℕ) (rows : List Job) : ℕ := (rows.map (share w)).sum

/-- The slots a job holds on a host. -/
def hostWeight (host : Text) (job : Job) : ℕ := if job.execHost = some host then job.numCpus else 0

/-- An element of the array counts once. -/
def arrayWeight (jobId : ℕ) (job : Job) : ℕ := if job.arrayIndex.isSome ∧ job.jobId = jobId then 1
    else 0

theorem stable_hostWeight (host : Text) : Stable (hostWeight host) := by
  intro a b hfixed hhost
  rw [hostWeight, hostWeight, hhost, show a.numCpus = b.numCpus from congrArg (·.numCpus) hfixed]

theorem stable_arrayWeight (jobId : ℕ) : Stable (arrayWeight jobId) := by
  intro a b hfixed _
  rw [arrayWeight, arrayWeight, show a.arrayIndex = b.arrayIndex from congrArg
    (·.arrayIndex) hfixed, show a.jobId = b.jobId from congrArg (·.jobId) hfixed]

section Load

variable {w : Job → ℕ}

/-- **A sum over the rows moves by the difference at the replaced row.** -/
theorem sum_map_replaceRow (f : Job → ℕ) {rows : List Job} {row after : Job} (hmem : row ∈ rows)
    (hnodup : (rows.map (·.rowId)).Nodup) (hid : after.rowId = row.rowId) :
    ((replaceRow rows after).map f).sum + f row = (rows.map f).sum + f after := by
  induction rows with
  | nil => cases hmem
  | cons r rows ih =>
    rw [List.map_cons, List.nodup_cons] at hnodup
    rw [replaceRow, List.map_cons, List.map_cons, List.map_cons, List.sum_cons, List.sum_cons]
    rcases List.mem_cons.mp hmem with rfl | hmem
    · have htail : (rows.map fun r => if r.rowId = after.rowId then after else r) = rows := by
        refine (List.map_congr_left fun r hr => if_neg fun heq => ?_).trans (List.map_id' rows)
        exact hnodup.1 (by rw [← hid, ← heq]; exact List.mem_map_of_mem hr)
      rw [if_pos hid.symm, htail]
      omega
    · have hne : r.rowId ≠ after.rowId := fun heq =>
        hnodup.1 (by rw [heq, hid]; exact List.mem_map_of_mem hmem)
      rw [if_neg hne]
      have hrest := ih hmem hnodup.2
      rw [replaceRow] at hrest
      omega

/-- What a dispatch adds; every other move adds nothing. -/
def cost (w : Job → ℕ) (v : Applied) : ℕ :=
  if v.before.stat = .pend ∧ v.after.stat = .run then w v.after else 0

theorem share_of_inactive {job : Job} (h : job.stat.isActive = false) : share w job = 0 := by
  rw [share, h]
  rfl

theorem share_of_active {job : Job} (h : job.stat.isActive = true) : share w job = w job := by
  rw [share, h]
  rfl

/-- **Only a dispatch adds to a load.** -/
theorem share_move (hw : Stable w) {row row' : Job} {now : ℚ} {kind : EventKind}
    (h : Move row now row' kind)
    (hplanned : row.plannedOutcome.isFinished = true) :
    share w row' ≤ share w row + if row.stat = .pend ∧ row'.stat = .run then w row' else 0 := by
  have hfixed := h.fixed
  have hended (hrest : row'.stat.isActive = false) : share w row' ≤ share w row := by
    rw [share_of_inactive hrest]
    exact Nat.zero_le _
  have hkept (hhost : row'.execHost = row.execHost) (hactive : row.stat.isActive = true) :
      share w row' ≤ share w row := by
    rw [share_of_active hactive, share, hw row' row hfixed hhost]
    split <;> omega
  cases h with
  | kill | stopPending | resumePending => exact Nat.le_add_right_of_le (hended rfl)
  | stop hstat =>
    exact Nat.le_add_right_of_le (hkept rfl (by rcases hstat with h | h <;> rw [h] <;> rfl))
  | resume _ hstat => exact Nat.le_add_right_of_le (hkept rfl (by rw [hstat]; rfl))
  | finish =>
    refine Nat.le_add_right_of_le (hended ?_)
    rcases finished_cases hplanned with h | h <;> rw [h] <;> rfl
  | systemStop hstat | systemResume hstat =>
    exact Nat.le_add_right_of_le (hkept rfl (by rw [hstat]; rfl))
  | dispatch host hstat =>
    rw [share_of_active rfl, if_pos ⟨hstat, rfl⟩]
    exact Nat.le_add_left _ _

/-- What is not a dispatch costs nothing. -/
theorem cost_eq_zero {v : Applied} (h : v.Legal) (hkind : v.event.kind ≠ .dispatch) :
    cost w v = 0 := by
  refine if_neg ?_
  have hmove := h.move
  obtain ⟨before, after, event⟩ := v
  simp only at hmove hkind
  rintro ⟨hpend, hrun⟩
  generalize event.kind = kind at hmove hkind
  cases hmove with
  | kill | stop | stopPending | resumePending => cases hrun
  | resume _ hstat | systemResume hstat => rw [hstat] at hpend; cases hpend
  | finish _ hstat => rcases hstat with h | h <;> rw [h] at hpend <;> cases hpend
  | systemStop => cases hrun
  | dispatch => exact hkind rfl

/-- **Rewriting adds to a load what is dispatched.** -/
theorem Rewrites.load {rows rows' : List Job} {ws : List Applied} (h : Rewrites rows ws rows')
    (hw : Stable w) (hnodup : (rows.map (·.rowId)).Nodup)
    (hplanned : ∀ row ∈ rows, row.plannedOutcome.isFinished = true) :
    Mock.load w rows' ≤ Mock.load w rows + (ws.map (cost w)).sum := by
  induction h with
  | nil => simp
  | @cons rows rows' v ws hmem hlegal _ ih =>
    have hfixed := map_fixed_replaceRow hmem hnodup hlegal.fixed
    have hshare : share w v.after ≤ share w v.before + cost w v :=
      share_move hw hlegal.move (hplanned _ hmem)
    have hsum := sum_map_replaceRow (share w) hmem hnodup (rowId_of_fixed hlegal.fixed)
    have hrest := ih (by rwa [map_rowId_of_fixed hfixed]) fun row hrow => by
      have hin : row.fixed ∈ (replaceRow rows v.after).map Job.fixed := List.mem_map_of_mem hrow
      rw [hfixed] at hin
      obtain ⟨row₀, hrow₀, heq⟩ := List.mem_map.mp hin
      rw [← show row₀.plannedOutcome = row.plannedOutcome from congrArg (·.plannedOutcome) heq]
      exact hplanned row₀ hrow₀
    simp only [Mock.load] at hsum hrest ⊢
    rw [List.map_cons, List.sum_cons]
    omega

theorem load_append (rows rows' : List Job) :
    load w (rows ++ rows') = load w rows + load w rows' := by
  rw [load, List.map_append, List.sum_append]
  rfl

theorem load_of_inactive {rows : List Job} (h : ∀ row ∈ rows, share w row = 0) :
    load w rows = 0 := by
  rw [load, List.map_congr_left h]
  simp

/-- **A step adds to a load what it dispatches.** -/
theorem Effect.load {db db' : Database} {ws : List Applied} (h : Effect db ws db') (hsane : db.Sane)
    (hw : Stable w) : Mock.load w db'.rows ≤ Mock.load w db.rows + (ws.map (cost w)).sum := by
  cases h with
  | quiet hrows => rw [hrows]; exact Nat.le_add_right _ _
  | @inserted jobs hfresh =>
    refine (le_of_eq ?_).trans (Nat.le_add_right _ _)
    obtain ⟨new, hrows, -, hnew⟩ := insertJobs_rows db jobs
    suffices hnone : Mock.load w new = 0 by rw [hrows, load_append, hnone, Nat.add_zero]
    refine load_of_inactive fun row hrow => ?_
    obtain ⟨job, hjob, i, -, rfl⟩ := hnew row hrow
    refine share_of_inactive ?_
    simp only [(hfresh job hjob).pend, Stat.isActive]
  | regrouped rowId group =>
    refine (le_of_eq ?_).trans (Nat.le_add_right _ _)
    rw [Mock.load, Mock.load, Database.updateJobGroup, List.map_map]
    refine congrArg List.sum (List.map_congr_left fun row _ => ?_)
    simp only [Function.comp_apply]
    split
    · rw [share, share, hw { row with jobGroup := group } row rfl rfl]
    · rfl
  | rewritten hrw => exact hrw.load hw hsane.keyed.nodup hsane.planned

end Load

/-! ## What a tick gives away -/

section Dispatch

variable {cl : Cluster}

/-- **The host that is picked** has the slots free. -/
theorem pickHost_fits {job : Job} {used : Text → ℕ} {host : Text}
    (h : pickHost cl job used = some host) :
    used host + job.numCpus ≤ cl.slots host := by
  -- what holds of the best host so far holds of the next one
  suffices hfold : ∀ (hs : List Text) (best : Option Text × ℤ),
      (∀ h ∈ best.1, used h + job.numCpus ≤ cl.slots h) →
      ∀ h ∈ (hs.foldl (fun (best : Option Text × ℤ) h =>
          let free : ℤ := cl.slots h - used h
          if (job.numCpus : ℤ) ≤ free ∧ best.2 < free then (some h, free) else best) best).1,
        used h + job.numCpus ≤ cl.slots h from hfold _ (none, -1) (by simp) host h
  intro hs
  induction hs with
  | nil => exact fun best hbest => hbest
  | cons g hs ih =>
    intro best hbest
    refine ih _ fun h hmem => ?_
    simp only at hmem
    split at hmem
    case isTrue hfree =>
      obtain rfl := Option.some.inj hmem
      omega
    case isFalse => exact hbest h hmem

/-- The running total of the slots… -/
theorem update_used (used : Text → ℕ) (now : ℚ) (host h : Text) (job : Job) :
    Function.update used host (used host + job.numCpus) h = used h +
        hostWeight h (dispatch now host job) := by
  have hweight : hostWeight h (dispatch now host job) = if host = h then job.numCpus else 0 :=
    if_congr Option.some_inj rfl rfl
  rw [Function.update_apply, hweight]
  by_cases heq : host = h
  · rw [if_pos heq, if_pos heq.symm, heq]
  · rw [if_neg heq, if_neg (Ne.symm heq), Nat.add_zero]

/-- …and that of the elements. -/
theorem update_arrays (arrays : ℕ → ℕ) (now : ℚ) (host : Text) (id : ℕ) (job : Job) :
    (if job.arrayIndex.isSome then Function.update arrays job.jobId (arrays job.jobId + 1)
      else arrays) id
      = arrays id + arrayWeight id (dispatch now host job) := by
  change _ = _ + if job.arrayIndex.isSome ∧ job.jobId = id then 1 else 0
  by_cases hindex : job.arrayIndex.isSome = true
  · rw [if_pos hindex, Function.update_apply]
    by_cases heq : job.jobId = id
    · rw [if_pos heq.symm, if_pos ⟨hindex, heq⟩, heq]
    · rw [if_neg (Ne.symm heq), if_neg fun h => heq h.2, Nat.add_zero]
  · rw [if_neg hindex, if_neg fun h => hindex h.1, Nat.add_zero]

/-- **What is given away fits**, with what was used before. -/
theorem dispatches_fit {limit : ℕ → ℕ} {now : ℚ} {pend : List Job}
    {used : Text → ℕ} {arrays : ℕ → ℕ}
    {dispatched : ℕ} (hpend : ∀ job ∈ pend, job.arrayLimit = limit job.jobId)
    (hused : ∀ h, used h ≤ cl.slots h) (harrays : ∀ id, 0 < limit id → arrays id ≤ limit id) :
    (∀ h,
      used h + ((dispatches cl now used arrays dispatched pend).map fun p => hostWeight h p.1).sum
      ≤ cl.slots h) ∧
    ∀ id, 0 < limit id →
      arrays id +
        ((dispatches cl now used arrays dispatched pend).map fun p => arrayWeight id p.1).sum
        ≤ limit id := by
  induction pend generalizing used arrays dispatched with
  | nil => exact ⟨hused, harrays⟩
  | cons j pend ih =>
    rw [List.forall_mem_cons] at hpend
    rw [dispatches]
    split
    · exact ⟨hused, harrays⟩
    split
    · exact ih hpend.2 hused harrays
    split
    · exact ih hpend.2 hused harrays
    case isFalse hlimit =>
      split
      · exact ih hpend.2 hused harrays
      case h_2 host hpick =>
        have hused' : ∀ h, Function.update used host (used host + j.numCpus) h ≤ cl.slots h :=
          fun h => by
          by_cases heq : h = host
          · rw [heq, Function.update_self]
            exact pickHost_fits hpick
          · rw [Function.update_of_ne heq]
            exact hused h
        have harrays' : ∀ id, 0 < limit id → (if j.arrayIndex.isSome then
            Function.update arrays j.jobId (arrays j.jobId + 1) else arrays) id ≤ limit id :=
              fun id hid => by
          by_cases heq : id = j.jobId
          · rw [hpend.1, ← heq, not_and, Nat.not_le] at hlimit
            have hfree := hlimit hid
            split
            · rw [heq, Function.update_self, ← heq]
              exact hfree
            · exact hfree.le
          · split
            · rw [Function.update_of_ne heq]
              exact harrays id hid
            · exact harrays id hid
        obtain ⟨hhosts, hlimits⟩ := ih hpend.2 hused' harrays'
        refine ⟨fun h => ?_, fun id hid => ?_⟩
        · rw [List.map_cons, List.sum_cons, ← Nat.add_assoc, ← update_used]
          exact hhosts h
        · rw [List.map_cons, List.sum_cons, ← Nat.add_assoc, ← update_arrays]
          exact hlimits id hid

/-- **What is written of the dispatches** costs no more than they do. -/
theorem cost_written_le {now : ℚ} {w : Job → ℕ} (hw : Stable w) {pairs : List (Job × Job)}
    {ws : List Applied}
    (hpairs : ∀ p ∈ pairs, ∃ host, p.1 = dispatch now host p.2)
    (h : List.Forall₂ (Written (transitionEvent now)) pairs ws) :
    (ws.map (cost w)).sum ≤ (pairs.map fun p => w p.1).sum := by
  induction h with
  | nil => exact le_rfl
  | @cons p v pairs ws hwritten _ ih =>
    rw [List.forall_mem_cons] at hpairs
    obtain ⟨host, hp⟩ := hpairs.1
    have hafter : w v.after = w p.1 := by
      rw [hwritten.after, hwritten.before, hp]
      exact hw _ _ rfl rfl
    have hcost : cost w v ≤ w p.1 := by
      rw [cost, hafter]
      split <;> omega
    exact Nat.add_le_add hcost (ih hpairs.2)

end Dispatch

/-! ## The invariant -/

/-- The job has an id that was given out, and the limit that was asked for with it. -/
structure Known (limit : ℕ → ℕ) (counter : ℕ) (job : Job) : Prop where
  id : job.jobId ≤ counter
  limit : job.arrayLimit = limit job.jobId

/-- **What was read covers what is active**, and fits. -/
structure Counted (cl : Cluster) (limit : ℕ → ℕ) (db : Database) (active : List Job) : Prop where
  hosts : ∀ h, load (hostWeight h) db.rows ≤ activeByHost active h
  arrays : ∀ id, load (arrayWeight id) db.rows ≤ activeByArray active id
  slots : ∀ h, activeByHost active h ≤ cl.slots h
  limits : ∀ id, 0 < limit id → activeByArray active id ≤ limit id
  /-- Nothing is counted of an id that is still to be given out. -/
  new : ∀ id, db.counter < id → activeByArray active id = 0

def Phase.Counted (cl : Cluster) (limit : ℕ → ℕ) (db : Database) : Phase → Prop
  | .ordering _ active | .dispatching _ active _ => Mock.Counted cl limit db active
  | _ => True

/-- The jobs a client is about to insert. -/
def Task.inserts : Task → List Job
  | .inserting jobs => jobs
  | _ => []

/-- **Nothing is oversubscribed**, and no tick is about to. -/
structure Within (cl : Cluster) (limit : ℕ → ℕ) (s : MockState) : Prop where
  one : s.schedulers.length ≤ 1
  rows : ∀ row ∈ s.db.rows, Known limit s.db.counter row
  inserts : ∀ c ∈ s.clients, ∀ job ∈ c.task.inserts, Known limit s.db.counter job
  hosts : ∀ h, load (hostWeight h) s.db.rows ≤ cl.slots h
  arrays : ∀ id, 0 < limit id → load (arrayWeight id) s.db.rows ≤ limit id
  schedulers : ∀ sc ∈ s.schedulers, sc.phase.Counted cl limit s.db

/-- A limit for the ids still to be given out may be chosen anew. -/
def Agree (counter : ℕ) (limit limit' : ℕ → ℕ) : Prop := ∀ id ≤ counter, limit' id = limit id

section Steps

variable {cl : Cluster} {limit limit' : ℕ → ℕ} {db db' : Database} {ws : List Applied}

theorem Known.mono {counter counter' : ℕ} {job : Job} (h : Known limit counter job)
    (hagree : Agree counter limit limit') (hcounter : counter ≤ counter') :
    Known limit' counter' job :=
  ⟨h.id.trans hcounter, h.limit.trans (hagree _ h.id).symm⟩

theorem Known.of_fixed {counter : ℕ} {job job' : Job} (h : Known limit counter job)
    (hfixed : job'.fixed = job.fixed) : Known limit counter job' := by
  have hid : job'.jobId = job.jobId := congrArg (·.jobId) hfixed
  have hlimit : job'.arrayLimit = job.arrayLimit := congrArg (·.arrayLimit) hfixed
  exact ⟨by rw [hid]; exact h.id, by rw [hid, hlimit]; exact h.limit⟩

theorem known_of_copied {counter : ℕ} (h : ∀ row ∈ db.rows, Known limit counter row) {job : Job}
    (hcopy : db.Copied job) : Known limit counter job := by
  obtain ⟨row, hrow, hfixed⟩ := List.mem_map.mp hcopy
  exact (h row hrow).of_fixed hfixed.symm

/-- Rows with the same fixed parts are known alike. -/
theorem known_of_rows (h : ∀ row ∈ db.rows, Known limit db.counter row)
    (hrows : db'.rows.map Job.fixed = db.rows.map Job.fixed) (hcounter : db'.counter = db.counter) :
    ∀ row ∈ db'.rows, Known limit db'.counter row := by
  intro row hrow
  rw [hcounter]
  refine known_of_copied h ?_
  rw [Database.Copied, ← hrows]
  exact List.mem_map_of_mem hrow

theorem known_of_buildJobs {id : ℕ} {req : Request} {plan : ℕ → Plan} {now : ℚ} {job : Job}
    (h : job ∈ buildJobs id req plan now) : job.jobId = id ∧ job.arrayLimit = req.limit := by
  rw [buildJobs] at h
  split at h
  · obtain rfl := List.mem_singleton.mp h
    exact ⟨rfl, rfl⟩
  · obtain ⟨⟨index, i⟩, -, rfl⟩ := List.mem_map.mp h
    exact ⟨rfl, rfl⟩

/-- Nothing is active of an id that is still to be given out. -/
theorem load_new (h : ∀ row ∈ db.rows, Known limit db.counter row) {id : ℕ}
    (hid : db.counter < id) :
    load (arrayWeight id) db.rows = 0 := by
  refine load_of_inactive fun row hrow => ?_
  have hne : row.jobId ≠ id := ((h row hrow).id.trans_lt hid).ne
  have hweight : arrayWeight id row = 0 := if_neg fun hand => hne hand.2
  rw [share, hweight, ite_self]

theorem Counted.mono {active : List Job} (h : Counted cl limit db active)
    (hagree : Agree db.counter limit limit') (hcounter : db.counter ≤ db'.counter)
    (hload : ∀ w, Stable w → load w db'.rows ≤ load w db.rows) : Counted cl limit' db' active where
  hosts g := (hload _ (stable_hostWeight g)).trans (h.hosts g)
  arrays id := (hload _ (stable_arrayWeight id)).trans (h.arrays id)
  slots := h.slots
  limits id hid := by
    by_cases hold : id ≤ db.counter
    · rw [hagree id hold] at hid ⊢
      exact h.limits id hid
    · rw [h.new id (Nat.lt_of_not_le hold)]
      exact Nat.zero_le _
  new id hid := h.new id (hcounter.trans_lt hid)

theorem Phase.Counted.mono {p : Phase} (h : p.Counted cl limit db)
    (hagree : Agree db.counter limit limit') (hcounter : db.counter ≤ db'.counter)
    (hload : ∀ w, Stable w → load w db'.rows ≤ load w db.rows) : p.Counted cl limit' db' := by
  cases p with
  | idle | transiting | counting => trivial
  | ordering | dispatching => exact Mock.Counted.mono h hagree hcounter hload

/-- **What a client does to the ids**: it may be given a new one, and the limit goes with it. -/
theorem ClientStep.known {c : Client} {a : ClientAct} {cs : List Client} (hsane : db.Sane)
    (hbacked : c.task.Backed db)
    (hrows : ∀ row ∈ db.rows, Known limit db.counter row)
    (hc : ∀ job ∈ c.task.inserts, Known limit db.counter job) (h : ClientStep db c a db' cs ws) :
    ∃ limit', Agree db.counter limit limit' ∧ db.counter ≤ db'.counter ∧
      (∀ row ∈ db'.rows, Known limit' db'.counter row) ∧
      ∀ c' ∈ cs, ∀ job ∈ c'.task.inserts, Known limit' db'.counter job := by
  have hsame : Agree db.counter limit limit := fun _ _ => rfl
  cases h with
  | stop => exact ⟨limit, hsame, le_rfl, hrows, by simp⟩
  | @issue request now plan =>
    have hagree : Agree db.counter limit (Function.update limit (db.counter + 1) request.limit) :=
      fun id hid => Function.update_of_ne (by omega) _ _
    refine ⟨_, hagree, Nat.le_succ _, fun row hrow => (hrows row hrow).mono hagree
      (Nat.le_succ _), ?_⟩
    refine List.forall_mem_singleton.mpr fun job hjob => ?_
    obtain ⟨hid, hlimit⟩ := known_of_buildJobs hjob
    exact ⟨hid.le, by rw [hid, Function.update_self, hlimit]⟩
  | query | begin | skip =>
    exact ⟨limit, hsame, le_rfl, hrows, List.forall_mem_singleton.mpr (by simp [Task.inserts])⟩
  | log => exact ⟨limit, hsame, le_rfl, hrows, List.forall_mem_singleton.mpr hc⟩
  | insert _ htask =>
    rw [htask] at hc
    refine ⟨limit, hsame, le_rfl, fun row hrow => ?_,
      List.forall_mem_singleton.mpr (by simp [Task.inserts])⟩
    rcases mem_insertJobs hrow with hold | ⟨job, hjob, i, -, rfl⟩
    · exact hrows row hold
    · exact ⟨(hc job hjob).id, (hc job hjob).limit⟩
  | regroup =>
    exact ⟨limit, hsame, le_rfl, known_of_rows hrows (map_fixed_updateJobGroup _ _ _) rfl,
      List.forall_mem_singleton.mpr (by simp [Task.inserts])⟩
  | @write cmd now j targets w _ _ _ htask hw hup =>
    rw [htask] at hbacked
    have hcopy : db.Copied w.job := by
      rw [Database.Copied, Cmd.write_fixed hw]
      exact hbacked j List.mem_cons_self
    obtain ⟨hrw, hdb, -⟩ := updateIfStatIn_moves hsane hcopy (fun _ => Cmd.write_legal hw) hup
    have hcounter : db'.counter = db.counter := by rw [hdb]
    exact ⟨limit, hsame, hcounter.ge, known_of_rows hrows (hrw.fixed hsane.keyed.nodup) hcounter,
      List.forall_mem_singleton.mpr (by simp [Task.inserts])⟩

theorem Cmd.write_kind {cmd : Cmd} {now : ℚ} {j : Job} {w : Write} (h : cmd.write now j = some w) :
    w.event.kind ≠ .dispatch := by
  rcases cmd with cluster | - | - | group
  · simp only [Cmd.write, bkillWrite] at h
    split at h <;> cases h
    simp [userEvent]
  · simp only [Cmd.write, bstopWrite] at h
    split at h <;> cases h <;> simp [userEvent]
  · simp only [Cmd.write, bresumeWrite] at h
    split at h <;> cases h <;> simp [userEvent]
  · cases h

/-- **A command dispatches nothing.** -/
theorem ClientStep.kind {c : Client} {a : ClientAct} {cs : List Client}
    (h : ClientStep db c a db' cs ws) :
    ∀ v ∈ ws, v.event.kind ≠ .dispatch := by
  cases h with
  | stop | issue | query | begin | log | insert | regroup | skip => simp
  | write _ _ hw hup =>
    intro v hv
    rw [Database.updateIfStatIn] at hup
    obtain ⟨-, rfl⟩ := Prod.mk.inj hup
    obtain ⟨row, -, rfl⟩ := Option.map_eq_some_iff.mp (Option.mem_toList.mp hv)
    exact Cmd.write_kind hw

/-- What is not a dispatch adds to no load. -/
theorem Effect.load_le {w : Job → ℕ} (h : Effect db ws db') (hsane : db.Sane) (hw : Stable w)
    (hkind : ∀ v ∈ ws, v.event.kind ≠ .dispatch) : Mock.load w db'.rows ≤ Mock.load w db.rows := by
  have hcost : (ws.map (cost w)).sum = 0 := by
    rw [List.map_congr_left fun v hv => cost_eq_zero (h.legal v hv) (hkind v hv)]
    simp
  have hle := h.load hsane hw
  rwa [hcost] at hle

/-- What a tick reads adds up to the load. -/
theorem sum_active (db : Database) (w : Job → ℕ) :
    ((db.jobsInStates activeStates).map w).sum = load w db.rows := by
  rw [Database.jobsInStates, ((List.perm_insertionSort _ _).map w).sum_eq, load]
  induction db.rows with
  | nil => rfl
  | cons row rows ih =>
    have hactive : decide (row.stat ∈ activeStates) = row.stat.isActive := by cases row.stat <;> rfl
    rw [List.map_cons, List.sum_cons, share, ← ih]
    cases hstat : row.stat.isActive
    · rw [List.filter_cons_of_neg (by rw [hactive, hstat]; simp)]
      simp
    · rw [List.filter_cons_of_pos (by rw [hactive, hstat]), List.map_cons,
        List.sum_cons, if_pos rfl]

theorem slots_nil (cl : Cluster) : cl.slots [] = 0 := by
  rw [Cluster.slots, Dict.get?_eq_none.mpr cl.named]
  rfl

/-- **A tick counts what is active.** -/
theorem counted_jobsInStates (hrows : ∀ row ∈ db.rows, Known limit db.counter row)
    (hhosts : ∀ h, load (hostWeight h) db.rows ≤ cl.slots h)
    (harrays : ∀ id, 0 < limit id → load (arrayWeight id) db.rows ≤ limit id) :
    Counted cl limit db (db.jobsInStates activeStates) := by
  have hhost :
      ∀ h, activeByHost (db.jobsInStates activeStates) h = load (hostWeight h) db.rows := by
    intro h
    by_cases hnil : h = []
    · have hzero := hhosts []
      rw [slots_nil] at hzero
      rw [hnil, Nat.le_zero.mp hzero]
      simp [activeByHost]
    · rw [← sum_active]
      simp only [activeByHost, ne_eq, hnil, not_false_eq_true, and_true]
      rfl
  have harray :
      ∀ id, activeByArray (db.jobsInStates activeStates) id = load (arrayWeight id) db.rows :=
    fun id => sum_active db (arrayWeight id)
  exact ⟨fun h => (hhost h).ge, fun id => (harray id).ge, fun h => (hhost h).trans_le (hhosts h),
    fun id hid => (harray id).trans_le (harrays id hid),
      fun id hid => (harray id).trans (load_new hrows hid)⟩

/-- A transition is no dispatch. -/
theorem transitions_kind {now : ℚ} {active : List Job}
    (h : ∀ job ∈ active, db.Copied job ∧ job.stat.isActive = true) {pairs : List (Job × Job)}
    (hsub : pairs.Sublist (transitions now active))
    (hall : List.Forall₂ (Written (transitionEvent now)) pairs ws) :
    ∀ v ∈ ws, v.event.kind ≠ .dispatch := by
  intro v hv
  obtain ⟨p, hp, hwritten⟩ := pair_of_written hall hv
  obtain ⟨job, hjob, hmap⟩ := List.mem_filterMap.mp (hsub.subset hp)
  obtain ⟨j', -, rfl⟩ := Option.map_eq_some_iff.mp hmap
  have hpend : job.stat ≠ .pend := fun heq => by
    have hactive := (h job hjob).2
    rw [heq] at hactive
    cases hactive
  rw [hwritten.event, transitionEvent_kind, if_neg hpend]
  split
  · split <;> simp
  · split <;> simp

/-- **A step of the scheduler oversubscribes nothing.** -/
theorem SchedulerStep.within {sc sc' : Scheduler} {a : SchedulerAct} (hsane : db.Sane)
    (hbacked : sc.phase.Backed db) (hrows : ∀ row ∈ db.rows, Known limit db.counter row)
    (hhosts : ∀ h, load (hostWeight h) db.rows ≤ cl.slots h)
    (harrays : ∀ id, 0 < limit id → load (arrayWeight id) db.rows ≤ limit id)
    (hsc : sc.phase.Counted cl limit db) (h : SchedulerStep cl db sc a db' sc' ws) :
    db'.counter = db.counter ∧ (∀ row ∈ db'.rows, Known limit db'.counter row) ∧
      (∀ h, load (hostWeight h) db'.rows ≤ cl.slots h) ∧
      (∀ id, 0 < limit id → load (arrayWeight id) db'.rows ≤ limit id) ∧
      sc'.phase.Counted cl limit db' := by
  have heffect := (h.effect hsane hbacked).1
  cases h with
  | abort | tick => exact ⟨rfl, hrows, hhosts, harrays, trivial⟩
  | log => exact ⟨rfl, hrows, hhosts, harrays, hsc.mono (fun _ _ => rfl) le_rfl fun _ _ => le_rfl⟩
  | count => exact ⟨rfl, hrows, hhosts, harrays, counted_jobsInStates hrows hhosts harrays⟩
  | order _ hphase =>
    rw [hphase] at hsc
    exact ⟨rfl, hrows, hhosts, harrays, hsc⟩
  | transit _ hphase hup =>
    rw [hphase] at hbacked
    obtain ⟨hrw, hdb, pairs, hsub, hall⟩ :=
      updateGuardedMany_moves hsane (proposals_of_transitions hbacked) hup
    have hkind := transitions_kind hbacked hsub hall
    have hcounter : db'.counter = db.counter := by rw [hdb]
    exact ⟨hcounter, known_of_rows hrows (hrw.fixed hsane.keyed.nodup) hcounter,
      fun g => (heffect.load_le hsane (stable_hostWeight g) hkind).trans (hhosts g),
      fun id hid => (heffect.load_le hsane (stable_arrayWeight id) hkind).trans
        (harrays id hid), trivial⟩
  | @dispatch now active pend _ _ _ hphase hup =>
    rw [hphase] at hbacked hsc
    obtain ⟨hrw, hdb, pairs, hsub, hall⟩ :=
      updateGuardedMany_moves hsane (proposals_of_dispatches hbacked) hup
    have hcounter : db'.counter = db.counter := by rw [hdb]
    obtain ⟨hfitHosts, hfitArrays⟩ := @dispatches_fit cl limit now pend _ _ 0
      (fun job hjob => (known_of_copied hrows (hbacked job hjob).1).limit) hsc.slots hsc.limits
    -- what is written is at most what was given away, and what is active at most what was counted
    have hgiven (w : Job → ℕ) (hw : Stable w) : load w db'.rows ≤ load w db.rows
        + ((dispatches cl now (activeByHost active) (activeByArray active) 0 pend).map
            fun p => w p.1).sum :=
      (heffect.load hsane hw).trans (Nat.add_le_add_left
        ((cost_written_le hw (fun p hp => (mem_dispatches (hsub.subset hp)).2) hall).trans
          (List.Sublist.sum_le_sum (hsub.map _) fun _ _ => Nat.zero_le _)) _)
    exact ⟨hcounter, known_of_rows hrows (hrw.fixed hsane.keyed.nodup) hcounter,
      fun g => (hgiven _ (stable_hostWeight g)).trans
        ((Nat.add_le_add_right (hsc.hosts g) _).trans (hfitHosts g)),
      fun id hid => (hgiven _ (stable_arrayWeight id)).trans
        ((Nat.add_le_add_right (hsc.arrays id) _).trans (hfitArrays id hid)), trivial⟩

theorem within_step {firstJobId n : ℕ} {s s' : MockState} {a : Act} (hco : Coherent s)
    (h : Within cl limit s) (hstep : (mock cl firstJobId n).step s a = some s') :
    ∃ limit', Within cl limit' s' := by
  obtain ⟨c, rfl, -, hc⟩ | ⟨i, act, c, db', cs, ws, -, hi, hcs, rfl⟩ |
    ⟨i, act, sc, db', sc', ws, -, hi, hscs, rfl⟩ := mock_cases hstep
  · refine ⟨limit, h.one, h.rows, fun c' hc' => ?_, h.hosts, h.arrays, h.schedulers⟩
    rcases List.mem_append.mp hc' with hold | hnew
    · exact h.inserts c' hold
    · obtain rfl := List.mem_singleton.mp hnew
      obtain ⟨request, htask⟩ | ⟨cmd, htask⟩ := hc <;> simp [htask, Task.inserts]
  · have hmem := List.mem_of_getElem? hi
    have hload (w : Job → ℕ) (hw : Stable w) : load w db'.rows ≤ load w s.db.rows :=
      (hcs.effect hco.sane (hco.clients c hmem)).1.load_le hco.sane hw hcs.kind
    obtain ⟨limit', hagree, hcounter, hrows, hinserts⟩ :=
      hcs.known hco.sane (hco.clients c hmem) h.rows (h.inserts c hmem)
    refine ⟨limit', h.one, hrows, fun c' hc' job hjob => ?_, fun g => ?_, fun id hid => ?_,
      fun sc hsc => (h.schedulers sc hsc).mono hagree hcounter hload⟩
    · rcases mem_replaceAt hc' with hold | hnew
      · exact (h.inserts c' hold job hjob).mono hagree hcounter
      · exact hinserts c' hnew job hjob
    · exact (hload _ (stable_hostWeight g)).trans (h.hosts g)
    · refine (hload _ (stable_arrayWeight id)).trans ?_
      by_cases hold : id ≤ s.db.counter
      · rw [hagree id hold] at hid ⊢
        exact h.arrays id hid
      · rw [load_new h.rows (Nat.lt_of_not_le hold)]
        exact Nat.zero_le _
  · have hmem := List.mem_of_getElem? hi
    obtain ⟨hcounter, hrows, hhosts, harrays, hsc'⟩ :=
      hscs.within hco.sane (hco.schedulers sc hmem) h.rows
      h.hosts h.arrays (h.schedulers sc hmem)
    -- there is no other scheduler
    have honly : replaceAt s.schedulers i [sc'] = [sc'] := by
      obtain ⟨sc₀, hsc₀⟩ : ∃ sc₀, s.schedulers = [sc₀] :=
        List.length_eq_one_iff.mp (le_antisymm h.one (List.length_pos_of_mem hmem))
      obtain ⟨hlt, -⟩ := List.getElem?_eq_some_iff.mp hi
      rw [hsc₀] at hlt ⊢
      obtain rfl : i = 0 := by simpa using hlt
      rfl
    refine ⟨limit, by simp only [honly, List.length_singleton, le_refl], hrows,
      fun c hc job hjob => (h.inserts c hc job hjob).mono (fun _ _ => rfl) hcounter.ge,
        hhosts, harrays, ?_⟩
    simp only [honly]
    exact List.forall_mem_singleton.mpr hsc'

end Steps

theorem within_init {cl : Cluster} {firstJobId n : ℕ} (hn : n ≤ 1) {s : MockState}
    (h : (mock cl firstJobId n).init s) : ∃ limit, Within cl limit s := by
  obtain rfl : s = _ := h
  refine ⟨fun _ => 0, by simpa using hn, by simp, by simp, by simp [load], by simp,
    fun sc hsc => ?_⟩
  rw [List.eq_of_mem_replicate hsc]
  trivial

theorem within_of_reachable {cl : Cluster} {firstJobId : ℕ} {s : MockState}
    (hs : (mock cl firstJobId 1).Reachable s) : ∃ limit, Within cl limit s := by
  refine hs.invariant (fun _ hinit => within_init le_rfl hinit) fun s a s' hr h _ hstep => ?_
  obtain ⟨limit, h⟩ := h
  exact within_step (coherent_of_reachable hr) h hstep

theorem sum_filter_active (p : Job → Bool) (f : Job → ℕ) (rows : List Job) :
    ((rows.filter fun row => row.stat.isActive && p row).map f).sum
      = load (fun row => if p row then f row else 0) rows := by
  induction rows with
  | nil => rfl
  | cons row rows ih =>
    rw [load, List.map_cons, List.sum_cons, share, ← load, ← ih]
    rcases hactive : row.stat.isActive with _ | _
    · rw [List.filter_cons_of_neg (by simp [hactive])]
      simp
    · rcases hp : p row with _ | _
      · rw [List.filter_cons_of_neg (by simp [hp])]
        simp
      · rw [List.filter_cons_of_pos (by simp [hactive, hp])]
        simp

/-- **The slots of a host are never oversubscribed**, nor is the limit of an array: with one
scheduler, in every state that is reached, whatever the commands do between the reads and the writes
of a tick, the active jobs on a host take at most its slots, and an array with a limit has at most
that many active elements. -/
theorem never_oversubscribed (cl : Cluster) (firstJobId : ℕ) {s : MockState}
    (hs : (mock cl firstJobId 1).Reachable s) :
    (∀ host, ((s.db.rows.filter fun row => row.stat.isActive && row.execHost = some host).map
      (·.numCpus)).sum ≤ cl.slots host) ∧
    ∀ row ∈ s.db.rows, row.arrayIndex.isSome = true → 0 < row.arrayLimit →
      (s.db.rows.filter fun r => r.stat.isActive &&
        (r.arrayIndex.isSome && r.jobId = row.jobId)).length
        ≤ row.arrayLimit := by
  obtain ⟨limit, h⟩ := within_of_reachable hs
  refine ⟨fun host => ?_, fun row hrow _ hlimit => ?_⟩
  · have hweight : hostWeight host = fun row =>
        if decide (row.execHost = some host) then row.numCpus else 0 := by
      ext row
      simp [hostWeight]
    rw [sum_filter_active, ← hweight]
    exact h.hosts host
  · have hsum :=
      sum_filter_active (fun r => r.arrayIndex.isSome && r.jobId = row.jobId) (fun _ => 1) s.db.rows
    simp only [List.map_const', List.sum_replicate, smul_eq_mul, mul_one] at hsum
    have hweight : arrayWeight row.jobId
        = fun r => if (r.arrayIndex.isSome && decide (r.jobId = row.jobId)) = true then 1
            else 0 := by
      ext r
      simp [arrayWeight]
    rw [(h.rows row hrow).limit] at hlimit ⊢
    rw [hsum, ← hweight]
    exact h.arrays row.jobId hlimit

/-- The job of a user takes both slots of the host. -/
theorem never_oversubscribed_full :
    ∃ s, (mock oneHost 1000 1).run (start 1) (submission ++ tick 11) = some s ∧
      (∃ row ∈ s.db.rows, row.stat = .run ∧ row.execHost = some "hostA".toList ∧ row.numCpus = 2) ∧
      ((s.db.rows.filter fun row => row.stat.isActive && row.execHost = some "hostA".toList).map
        (·.numCpus)).sum ≤ oneHost.slots "hostA".toList := by
  have hrun : ((mock oneHost 1000 1).run (start 1) (submission ++ tick 11)).any
      (fun s => s.db.rows.any fun row => row.stat = .run && row.execHost = some "hostA".toList
        && row.numCpus = 2) = true := by decide +kernel
  obtain ⟨s, hs, hrow⟩ := (Option.any_eq_true _ _).mp hrun
  have hreach : (mock oneHost 1000 1).Reachable s := System.reachable_of_run (.init rfl) hs
  exact ⟨s, hs, by simpa [and_assoc] using hrow, (never_oversubscribed oneHost 1000 hreach).1 _⟩

end Lsfmgr.Mock
