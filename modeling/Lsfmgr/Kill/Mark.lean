import Mathlib
import Lsfmgr.Store.Memory

/-!
# Kill/Mark — the write that says "this kill ended the job"

Under the optimistic policy a job that is still on LSF goes to `EXIT`; in every other case only the
`killed` flag is set, so that a state somebody observed, and its exit code, stay.  Both writes ask
that the record still is the job the kill was aimed at (`sameJob`).
-/

namespace Lsfmgr.Kill

/-- The record is still the job of the snapshot. -/
def sameJob (target cur : JobRecord) : Bool :=
  cur.sameExecution target && cur.jobId = target.jobId && cur.arrayIndex = target.arrayIndex

/-- The transition of the optimistic policy. -/
def markExit (s : InMemoryStore) (now : Time) (r : JobRecord) :
    Except StoreError (Option JobRecord × InMemoryStore) :=
  s.transition now r.jobsetId r.jobKey (some .exit)
    (Guard.of fun cur => sameJob r cur && cur.state.isOnLsf)
    [.failReason (some "KILLED"), .killed true]

/-- The flag alone. -/
def markFlag (s : InMemoryStore) (now : Time) (r : JobRecord) :
    Except StoreError (Option JobRecord × InMemoryStore) :=
  s.transition now r.jobsetId r.jobKey none (Guard.of (sameJob r)) [.killed true]

end Lsfmgr.Kill
