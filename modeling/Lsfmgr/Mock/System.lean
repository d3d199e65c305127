import Mathlib
import Lsfmgr.Machinery.Pool
import Lsfmgr.Machinery.Transition
import Lsfmgr.Mock.Commands
import Lsfmgr.Mock.Scheduler

/-!
# Mock/System — the processes that share the database

Every `bsub`, `bkill`, `bstop`, `bresume` and `bmod` is a process of its own, and so is a
scheduler.  A step is one query or one transaction, and in between any other process may take its
steps: what a process goes on with are the rows it has read.  The clock may read anything at any
time, and a process may end after any of its steps.

`writes` is a history of the applied writes that no process reads.
-/

namespace Lsfmgr.Mock

open Machinery
open Command (Text)

/-! ## Processes -/

/-- What is left to do for a command. -/
inductive Task
  | submitting (request : Request)
  | inserting (jobs : List Job)
  /-- The rows found so far. -/
  | collecting (cmd : Cmd) (targets : List Job)
  | writing (cmd : Cmd) (now : ℚ) (targets : List Job)

structure Client where
  task : Task
  /-- Events that are logged before anything else is done. -/
  log : List Event := []

/-- Where a tick is. -/
inductive Phase
  | idle
  | transiting (now : ℚ) (active : List Job)
  | counting (now : ℚ)
  | ordering (now : ℚ) (active : List Job)
  | dispatching (now : ℚ) (active pend : List Job)

structure Scheduler where
  phase : Phase := .idle
  log : List Event := []

structure MockState where
  db : Database
  clients : List Client := []
  schedulers : List Scheduler
  writes : List Applied := []

/-! ## Steps -/

/-- What a client does next; `query` is one `SELECT`, whatever it selects. -/
inductive ClientAct
  | issue (now : ℚ) (plan : ℕ → Plan)
  | query (select : Job → Bool)
  | begin (now : ℚ)
  | next
  | stop

inductive SchedulerAct
  | tick (now : ℚ)
  | next
  /-- An exception ends the tick. -/
  | abort

inductive Act
  | submit (request : Request)
  | start (cmd : Cmd)
  | client (i : ℕ) (a : ClientAct)
  | scheduler (i : ℕ) (a : SchedulerAct)

/-- The rows that are not among the targets yet. -/
def addTargets (targets found : List Job) : List Job :=
  targets ++ found.filter fun j => j.rowId ∉ targets.map (·.rowId)

/-- One step of a client: the database, what becomes of the client, and the applied write. -/
def Client.step (db : Database) (c : Client) :
    ClientAct → Option (Database × List Client × List Applied)
  | .stop => some (db, [], [])
  | .issue now plan =>
    match c.task with
    | .submitting request =>
      let (id, db) := db.nextJobId
      some (db, [{ c with task := .inserting (buildJobs id request plan now) }], [])
    | _ => none
  | .query select =>
    match c.task with
    | .collecting cmd targets =>
      some
        (db, [{ c with task := .collecting cmd (addTargets targets (db.rows.filter select)) }], [])
    | _ => none
  | .begin now =>
    match c.task with
    | .collecting cmd targets => some (db, [{ c with task := .writing cmd now targets }], [])
    | _ => none
  | .next =>
    match c.log with
    | event :: log => some (db.logEvent event, [{ c with log }], [])
    | [] =>
      match c.task with
      | .inserting (job :: jobs) =>
        some (db.insertJobs (job :: jobs),
          [{ task := .inserting [], log := (job :: jobs).map submitEvent }], [])
      | .writing (.bmod group) now (j :: targets) =>
        some (db.updateJobGroup j.rowId group,
          [{ c with task := .writing (.bmod group) now targets }], [])
      | .writing cmd now (j :: targets) =>
        match cmd.write now j with
        | none => some (db, [{ c with task := .writing cmd now targets }], [])
        | some w =>
          let (db, applied) := db.updateIfStatIn w.job w.allowed w.columns w.event
          some (db, [{ task := .writing cmd now targets, log := applied.toList.map (·.event) }],
            applied.toList)
      | _ => none

/-- `ACTIVE_STATES` -/
def activeStates : List Stat := [.run, .ssusp, .ususp]

/-- One step of a scheduler. -/
def Scheduler.step (cl : Cluster) (db : Database) (sc : Scheduler) :
    SchedulerAct → Option (Database × Scheduler × List Applied)
  | .abort => some (db, {}, [])
  | .tick now =>
    match sc.log, sc.phase with
    | [], .idle => some (db, { phase := .transiting now (db.jobsInStates activeStates) }, [])
    | _, _ => none
  | .next =>
    match sc.log with
    | event :: log => some (db.logEvent event, { sc with log }, [])
    | [] =>
      match sc.phase with
      | .idle => none
      | .transiting now active =>
        let (db, applied) := db.updateGuardedMany (transitionEvent now) (transitions now active)
        some (db, { phase := .counting now, log := applied.map (·.event) }, applied)
      | .counting now => some (db, { phase := .ordering now (db.jobsInStates activeStates) }, [])
      | .ordering now active =>
        some (db, { phase := .dispatching now active (pendOrder cl (db.jobsInStates [.pend])) }, [])
      | .dispatching now active pend =>
        let (db, applied) := db.updateGuardedMany (transitionEvent now)
          (dispatches cl now (activeByHost active) (activeByArray active) 0 pend)
        some (db, { phase := .idle, log := applied.map (·.event) }, applied)

/-- The mock with its processes; `n` schedulers and no command at first. -/
def mock (cl : Cluster) (firstJobId n : ℕ) : System MockState Act where
  init s := s = { db := { counter := firstJobId }, schedulers := List.replicate n {} }
  step s
    | .submit request => some { s with clients := s.clients ++ [{ task := .submitting request }] }
    | .start cmd => some { s with clients := s.clients ++ [{ task := .collecting cmd [] }] }
    | .client i a =>
      s.clients[i]?.bind fun c => (c.step s.db a).map fun (db, cs, ws) =>
        { s with db, clients := replaceAt s.clients i cs, writes := s.writes ++ ws }
    | .scheduler i a =>
      s.schedulers[i]?.bind fun sc => (sc.step cl s.db a).map fun (db, sc, ws) =>
        { s with db, schedulers := replaceAt s.schedulers i [sc], writes := s.writes ++ ws }

/-! ## What a step can do -/

/-- The steps of a client. -/
inductive ClientStep (db : Database) (c : Client) :
    ClientAct → Database → List Client → List Applied → Prop
  | stop : ClientStep db c .stop db [] []
  | issue {request : Request} (now : ℚ) (plan : ℕ → Plan) : c.task = .submitting request →
      ClientStep db c (.issue now plan) { db with counter := db.counter + 1 }
        [{ c with task := .inserting (buildJobs (db.counter + 1) request plan now) }] []
  | query {cmd : Cmd} {targets : List Job} (select : Job → Bool) : c.task =
      .collecting cmd targets →
      ClientStep db c (.query select) db
        [{ c with task := .collecting cmd (addTargets targets (db.rows.filter select)) }] []
  | begin {cmd : Cmd} {targets : List Job} (now : ℚ) : c.task = .collecting cmd targets →
      ClientStep db c (.begin now) db [{ c with task := .writing cmd now targets }] []
  | log {event : Event} {log : List Event} : c.log = event :: log →
      ClientStep db c .next (db.logEvent event) [{ c with log }] []
  | insert {jobs : List Job} : c.log = [] → c.task = .inserting jobs →
      ClientStep db c .next (db.insertJobs jobs)
        [{ task := .inserting [], log := jobs.map submitEvent }] []
  | regroup {group : Text} {now : ℚ} {j : Job} {targets : List Job} : c.log = [] →
      c.task = .writing (.bmod group) now (j :: targets) →
      ClientStep db c .next (db.updateJobGroup j.rowId group)
        [{ c with task := .writing (.bmod group) now targets }] []
  | skip {cmd : Cmd} {now : ℚ} {j : Job} {targets : List Job} : c.log = [] →
      c.task = .writing cmd now (j :: targets) → cmd.write now j = none →
      ClientStep db c .next db [{ c with task := .writing cmd now targets }] []
  | write {cmd : Cmd} {now : ℚ} {j : Job} {targets : List Job} {w : Write} {db' : Database}
      {applied : Option Applied} : c.log = [] → c.task = .writing cmd now (j :: targets) →
      cmd.write now j = some w →
      db.updateIfStatIn w.job w.allowed w.columns w.event = (db', applied) →
      ClientStep db c .next db'
        [{ task := .writing cmd now targets, log := applied.toList.map (·.event) }] applied.toList

theorem Client.step_cases {db db' : Database} {c : Client} {a : ClientAct} {cs : List Client}
    {ws : List Applied} (h : c.step db a = some (db', cs, ws)) : ClientStep db c a db' cs ws := by
  rcases c with ⟨task, log⟩
  rcases a with ⟨now, plan⟩ | select | now | - | -
  · rcases task with request | jobs | ⟨cmd, targets⟩ | ⟨cmd, now, targets⟩ <;> cases h
    exact .issue now plan rfl
  · rcases task with request | jobs | ⟨cmd, targets⟩ | ⟨cmd, now, targets⟩ <;> cases h
    exact .query select rfl
  · rcases task with request | jobs | ⟨cmd, targets⟩ | ⟨cmd, now, targets⟩ <;> cases h
    exact .begin now rfl
  · rcases log with _ | ⟨event, log⟩
    · rcases task with request | jobs | ⟨cmd, targets⟩ | ⟨cmd, now, targets⟩
      · cases h
      · rcases jobs with _ | ⟨job, jobs⟩ <;> cases h
        exact .insert rfl rfl
      · cases h
      · rcases targets with _ | ⟨j, targets⟩
        · cases cmd <;> cases h
        · by_cases hmod : ∃ group, cmd = .bmod group
          · obtain ⟨group, rfl⟩ := hmod
            cases h
            exact .regroup rfl rfl
          · have hstep : (match cmd.write now j with
                | none => some (db, [({ task := .writing cmd now targets } : Client)], [])
                | some w =>
                  let (db, applied) := db.updateIfStatIn w.job w.allowed w.columns w.event
                  some (db,
                    [{ task := .writing cmd now targets, log := applied.toList.map (·.event) }],
                    applied.toList)) = some (db', cs, ws) := by
              cases cmd with
              | bmod group => exact absurd ⟨group, rfl⟩ hmod
              | _ => exact h
            rcases hw : cmd.write now j with _ | w
            · rw [hw] at hstep
              cases hstep
              exact .skip rfl rfl hw
            · rw [hw] at hstep
              cases hstep
              exact .write rfl rfl hw rfl
    · cases h
      exact .log rfl
  · cases h
    exact .stop

/-- The steps of a scheduler. -/
inductive SchedulerStep (cl : Cluster) (db : Database) (sc : Scheduler) :
    SchedulerAct → Database → Scheduler → List Applied → Prop
  | abort : SchedulerStep cl db sc .abort db {} []
  | tick (now : ℚ) : sc.log = [] → sc.phase = .idle →
      SchedulerStep cl db sc (.tick now) db
        { phase := .transiting now (db.jobsInStates activeStates) } []
  | log {event : Event} {log : List Event} : sc.log = event :: log →
      SchedulerStep cl db sc .next (db.logEvent event) { sc with log } []
  | transit {now : ℚ} {active : List Job} {db' : Database} {applied : List Applied} : sc.log = [] →
      sc.phase = .transiting now active →
      db.updateGuardedMany (transitionEvent now) (transitions now active) = (db', applied) →
      SchedulerStep cl db sc .next db'
        { phase := .counting now, log := applied.map (·.event) } applied
  | count {now : ℚ} : sc.log = [] → sc.phase = .counting now →
      SchedulerStep cl db sc .next db { phase := .ordering now (db.jobsInStates activeStates) } []
  | order {now : ℚ} {active : List Job} : sc.log = [] → sc.phase = .ordering now active →
      SchedulerStep cl db sc .next db
        { phase := .dispatching now active (pendOrder cl (db.jobsInStates [.pend])) } []
  | dispatch {now : ℚ} {active pend : List Job} {db' : Database} {applied : List Applied} :
      sc.log = [] → sc.phase = .dispatching now active pend →
      db.updateGuardedMany (transitionEvent now)
        (dispatches cl now (activeByHost active) (activeByArray active) 0 pend) = (db', applied) →
      SchedulerStep cl db sc .next db' { phase := .idle, log := applied.map (·.event) } applied

theorem Scheduler.step_cases {cl : Cluster} {db db' : Database} {sc sc' : Scheduler}
    {a : SchedulerAct}
    {ws : List Applied} (h : sc.step cl db a = some (db', sc', ws)) :
    SchedulerStep cl db sc a db' sc' ws := by
  rcases sc with ⟨phase, log⟩
  rcases a with now | - | -
  · rcases log with _ | ⟨event, log⟩ <;>
      rcases phase with _ | ⟨now', active⟩ | now' | ⟨now', active⟩ |
        ⟨now', active, pend⟩ <;> cases h
    exact .tick now rfl rfl
  · rcases log with _ | ⟨event, log⟩
    · rcases phase with _ | ⟨now, active⟩ | now | ⟨now, active⟩ | ⟨now, active, pend⟩ <;> cases h
      · exact .transit rfl rfl rfl
      · exact .count rfl rfl
      · exact .order rfl rfl
      · exact .dispatch rfl rfl rfl
    · cases h
      exact .log rfl
  · cases h
    exact .abort

/-- **The steps of the system**: a new process, a step of a client, or one of a scheduler. -/
theorem mock_cases {cl : Cluster} {firstJobId n : ℕ} {s s' : MockState} {a : Act}
    (h : (mock cl firstJobId n).step s a = some s') :
    (∃ c : Client, s' = { s with clients := s.clients ++ [c] } ∧ c.log = [] ∧
      ((∃ request, c.task = .submitting request) ∨ ∃ cmd, c.task = .collecting cmd [])) ∨
    (∃ i act c db cs ws, a = .client i act ∧ s.clients[i]? = some c ∧
      ClientStep s.db c act db cs ws ∧
      s' = { s with db, clients := replaceAt s.clients i cs, writes := s.writes ++ ws }) ∨
    ∃ i act sc db sc' ws, a = .scheduler i act ∧ s.schedulers[i]? = some sc ∧
      SchedulerStep cl s.db sc act db sc' ws ∧
      s' =
          { s with db, schedulers := replaceAt s.schedulers i [sc'],
                   writes := s.writes ++ ws } := by
  rcases a with request | cmd | ⟨i, act⟩ | ⟨i, act⟩
  · cases h
    exact .inl ⟨_, rfl, rfl, .inl ⟨request, rfl⟩⟩
  · cases h
    exact .inl ⟨_, rfl, rfl, .inr ⟨cmd, rfl⟩⟩
  · obtain ⟨c, hc, h⟩ := Option.bind_eq_some_iff.mp h
    obtain ⟨⟨db, cs, ws⟩, hstep, rfl⟩ := Option.map_eq_some_iff.mp h
    exact .inr (.inl ⟨i, act, c, db, cs, ws, rfl, hc, Client.step_cases hstep, rfl⟩)
  · obtain ⟨sc, hsc, h⟩ := Option.bind_eq_some_iff.mp h
    obtain ⟨⟨db, sc', ws⟩, hstep, rfl⟩ := Option.map_eq_some_iff.mp h
    exact .inr (.inr ⟨i, act, sc, db, sc', ws, rfl, hsc, Scheduler.step_cases hstep, rfl⟩)

/-! ## A small cluster -/

/-- One host with two slots. -/
def oneHost : Cluster where
  hosts := ⟨[("hostA".toList, 2)], by decide⟩
  isSpace c := c = ' '
  named := by decide

/-- The state the mock starts in. -/
def start (n : ℕ) : MockState := { db := { counter := 1000 }, schedulers := List.replicate n {} }

/-- One job is submitted by the first client at time 10, and runs for a minute once it is
dispatched. -/
def submission : List Act :=
  [.submit { numCpus := 2 }, .client 0 (.issue 10 fun _ => { runSecs := 60 }), .client 0 .next,
    .client 0 .next]

/-- A whole tick of the first scheduler in which one event is logged, after it has ended. -/
def tick (now : ℚ) : List Act :=
  .scheduler 0 (.tick now) :: List.replicate 5 (.scheduler 0 .next)

/-- A command for every job, which is the `i`-th client. -/
def command (i : ℕ) (cmd : Cmd) (now : ℚ) : List Act :=
  [.start cmd, .client i (.query fun _ => true), .client i (.begin now),
    .client i .next, .client i .next]

end Lsfmgr.Mock
