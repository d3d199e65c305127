import Lsfmgr.Machinery.Transition
import Lsfmgr.Machinery.Pool
import Lsfmgr.Machinery.Dict
import Lsfmgr.Machinery.Ledger
import Lsfmgr.Machinery.Streak
import Lsfmgr.Store.States
import Lsfmgr.Store.Memory
import Lsfmgr.Store.Targets
import Lsfmgr.Monitor.Merge
import Lsfmgr.Kill.Mark
import Lsfmgr.Submit.Gate
import Lsfmgr.Submit.Cycle
import Lsfmgr.Submit.Task
import Lsfmgr.Submit.System
import Lsfmgr.Submit.Steps
import Lsfmgr.Submit.Units
import Lsfmgr.Submit.Accounting
import Lsfmgr.Submit.ExactlyOnce
import Lsfmgr.Submit.Current
import Lsfmgr.Submit.Phases
import Lsfmgr.Submit.Tracked
import Lsfmgr.Submit.Exposure
import Lsfmgr.Submit.Priority
import Lsfmgr.Submit.Ownership
import Lsfmgr.Submit.Notes
import Lsfmgr.Submit.Published
import Lsfmgr.Submit.Reentry
import Lsfmgr.Monitor.Querier
import Lsfmgr.Monitor.Lost
import Lsfmgr.Machinery.Prog
import Lsfmgr.Machinery.Amid
import Lsfmgr.Store.Counts
import Lsfmgr.Store.Atomic
import Lsfmgr.Store.Batch
import Lsfmgr.Store.Shape
import Lsfmgr.Jobset.Core
import Lsfmgr.Jobset.Summary
import Lsfmgr.Jobset.Quiet
import Lsfmgr.Jobset.Edit
import Lsfmgr.Jobset.Build
import Lsfmgr.Submit.Commands
import Lsfmgr.Jobset.Remove
import Lsfmgr.Store.Revisions
import Lsfmgr.Manager.Delivery
import Lsfmgr.Manager.Ordering
import Lsfmgr.Lifecycle.Gate
import Lsfmgr.Lifecycle.Barriers
import Lsfmgr.Handlers.Exclusive
import Lsfmgr.Handlers.FinalOnce
import Lsfmgr.Monitor.Serial
import Lsfmgr.Monitor.Frame
import Lsfmgr.Status.Order
import Lsfmgr.Status.Fresh
import Lsfmgr.Status.Absence
import Lsfmgr.Status.Retention
import Lsfmgr.Status.Parse
import Lsfmgr.Monitor.Stale
import Lsfmgr.Monitor.Polling
import Lsfmgr.Command.Chunk
import Lsfmgr.Command.Argv
import Lsfmgr.Command.Rows
import Lsfmgr.Command.Times
import Lsfmgr.Command.Query
import Lsfmgr.Command.Formats
import Lsfmgr.Command.Isolation
import Lsfmgr.Command.Limit
import Lsfmgr.Kill.Output
import Lsfmgr.Kill.Targets
import Lsfmgr.Kill.Requery
import Lsfmgr.Machinery.Decimal
import Lsfmgr.Machinery.Calendar
import Lsfmgr.Machinery.Strptime
import Lsfmgr.Machinery.Separated
import Lsfmgr.Machinery.Shlex
import Lsfmgr.Kill.Select
import Lsfmgr.Kill.Bkill
import Lsfmgr.Kill.Confirm
import Lsfmgr.Kill.Ranges
import Lsfmgr.Kill.Task
import Lsfmgr.Kill.Marking
import Lsfmgr.Kill.Refresh
import Lsfmgr.Kill.Bookkeeping
import Lsfmgr.Kill.Sessions
import Lsfmgr.Monitor.Converge
import Lsfmgr.Monitor.Aggregate
import Lsfmgr.Mock.Job
import Lsfmgr.Mock.Formats
import Lsfmgr.Mock.RoundTrip
import Lsfmgr.Mock.Database
import Lsfmgr.Mock.Commands
import Lsfmgr.Mock.Scheduler
import Lsfmgr.Mock.System
import Lsfmgr.Mock.Life
import Lsfmgr.Mock.Finished
import Lsfmgr.Mock.Suspension
import Lsfmgr.Mock.Slots
import Lsfmgr.Machinery.Lane
import Lsfmgr.Pacer.Core
import Lsfmgr.Pacer.Machine
import Lsfmgr.Pacer.Prune
import Lsfmgr.Machinery.History
import Lsfmgr.Completion.Machine
import Lsfmgr.Completion.Once
