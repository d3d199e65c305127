import Mathlib
import Lsfmgr.Machinery.Dict
import Lsfmgr.Store.States

/-!
# Status/Source — the ledger of a callback status source, and what each lock section does to it

An `InternalStatusSource` keeps a *ledger* of the newest row it was sent for each job id and array
index, of the ids somebody asked for (the *interest*) only.  A response may be incremental, so it is
merged, row by row; what ended long ago is pruned.

The clocks: `now` is the local wall clock, `fetchAt` the monotonic clock when a fetch started.
`-inf` is `⊥`, `inf` is `⊤`.
-/

namespace Lsfmgr.Status

open Machinery

/-! ## Clocks

The order Mathlib has on the extended integers does not compute. -/

instance decidableLEBot (a b : WithBot ℤ) : Decidable (a ≤ b) :=
  match a, b with
  | ⊥, _ => isTrue bot_le
  | (a : ℤ), ⊥ => isFalse (by simp)
  | (a : ℤ), (b : ℤ) => decidable_of_iff (a ≤ b) WithBot.coe_le_coe.symm

instance decidableLTBot (a b : WithBot ℤ) : Decidable (a < b) := decidable_of_iff (¬b ≤ a) not_le

instance decidableLETop (a b : WithTop ℤ) : Decidable (a ≤ b) :=
  match a, b with
  | _, ⊤ => isTrue le_top
  | ⊤, (a : ℤ) => isFalse (by simp)
  | (a : ℤ), (b : ℤ) => decidable_of_iff (a ≤ b) WithTop.coe_le_coe.symm

instance decidableLTTop (a b : WithTop ℤ) : Decidable (a < b) := decidable_of_iff (¬b ≤ a) not_le

/-- One second. -/
def second : ℤ := 1000000

/-- `FetcherState` -/
inductive FetcherState
  | idle
  | primary
  | failover
  | down
  deriving DecidableEq, Repr

/-- `_Entry`: a row, when it was received, and when the fetch that brought it started. -/
structure Entry where
  status : JobStatus
  seenAt : Time
  fetchedAt : ℤ
  deriving DecidableEq

/-- `_ledger`: job id to array index to entry. -/
abbrev Ledger := Dict ℕ (Dict (Option ℕ) Entry)

/-- The arguments of the constructor. -/
structure Options where
  /-- A `failover` callback was given. -/
  failover : Bool
  refreshMinS : Option ℤ
  pollIntervalS : ℤ := 0
  waitTimeoutS : ℤ
  retention : ℤ := 14 * 24 * 3600 * second
  trackRuntime : Bool := true

namespace Options

/-- `_wait_timeout_s` -/
def waitTimeout (o : Options) : ℤ := max second o.waitTimeoutS

/-- `_retention`; zero switches pruning off. -/
def kept (o : Options) : ℤ := max 0 o.retention

/-- `_refresh_min_s` before any polling interval is known. -/
def firstRefresh (o : Options) : ℤ := o.refreshMinS.getD (max 0 o.pollIntervalS / 2)

end Options

/-- The fields of an `InternalStatusSource`. -/
structure Source where
  ledger : Ledger := ∅
  interest : Finset ℕ := ∅
  lastFetchAt : WithBot ℤ := ⊥
  lastPruneAt : WithBot ℤ := ⊥
  fetching : Bool := false
  fetchDeadline : WithTop ℤ := ⊤
  fetchToken : Option ℕ := none
  inflight : ℤ := 0
  /-- The completed fetches that were not taken over. -/
  gen : ℕ := 0
  closed : Bool := false
  primaryUnreturned : ℤ := 0
  health : FetcherState := .idle
  healthAt : WithBot ℤ := ⊥
  refreshMinS : ℤ
  minPollIntervalS : Option ℤ := none

/-- `MAX_INFLIGHT` -/
def maxInflight : ℤ := 3

/-- `_PRUNE_MIN_INTERVAL_S` -/
def pruneMinInterval : ℤ := 60 * second

/-- A new source. -/
def Options.source (o : Options) : Source := { refreshMinS := o.firstRefresh }

/-- The entry of a job id and an array index. -/
def entryAt (l : Ledger) (id : ℕ) (idx : Option ℕ) : Option Entry :=
  (l.get? id).bind fun elems => elems.get? idx

/-! ## Merging a response -/

/-- One row of `_merge_locked`; the list collects the keys that were written. -/
def absorb (interest : Finset ℕ) (now : Time) (fetchAt : ℤ)
    (acc : Ledger × List (ℕ × Option ℕ)) (st : JobStatus) : Ledger × List (ℕ × Option ℕ) :=
  if st.jobId ∉ interest then acc
  else if (entryAt acc.1 st.jobId st.arrayIndex).any fun previous => fetchAt < previous.fetchedAt
    then acc
  else
    let elems := (acc.1.get? st.jobId).getD ∅
    (acc.1.set st.jobId (elems.set st.arrayIndex ⟨st, now, fetchAt⟩),
      (st.jobId, st.arrayIndex) :: acc.2)

/-- An entry of `_refresh_runtimes_locked`: the elapsed time of a job that runs. -/
def Entry.refreshed (now : Time) (e : Entry) : Entry :=
  match e.status.state.isOnLsf, e.status.startTime with
  | true, some start =>
    let secs := (now - start).tdiv second
    if secs < 0 ∨ e.status.runTimeS = some secs then e
    else { e with status := { e.status with runTimeS := some secs } }
  | _, _ => e

/-- `_refresh_runtimes_locked` -/
def refreshRuntimes (l : Ledger) (now : Time) (freshKeys : List (ℕ × Option ℕ)) : Ledger :=
  l.mapValues fun id elems => elems.mapValues fun idx e =>
    if (id, idx) ∈ freshKeys then e else e.refreshed now

/-- `_merge_locked` -/
def merge (o : Options) (s : Source) (statuses : List JobStatus) (now : Time) (fetchAt : ℤ) :
    Ledger :=
  let merged := statuses.foldl (absorb s.interest now fetchAt) (s.ledger, [])
  if o.trackRuntime ∧ s.lastFetchAt ≤ fetchAt then refreshRuntimes merged.1 now merged.2
  else merged.1

/-! ## Pruning -/

/-- `_expired` -/
def expired (o : Options) (now : Time) (e : Entry) : Bool :=
  if e.status.state = .done ∨ e.status.state = .exit then
    o.kept < now - e.status.finishTime.getD e.seenAt
  else false

/-- The pass of `_prune_locked` over the ledger: the entries that stay… -/
def pruned (o : Options) (now : Time) (l : Ledger) : Ledger :=
  l.mapValues fun _ elems => elems.filter fun _ e => !expired o now e

/-- …the ids with an entry left… -/
def nonempty (l : Ledger) : Ledger := l.filter fun _ elems => elems.keys ≠ []

/-- …and the ids that are dropped with their last entry. -/
def emptied (l : Ledger) : Finset ℕ :=
  (l.keys.filter fun id => (l.get? id).any fun elems => elems.keys = []).toFinset

namespace Source

/-- `_prune_locked` -/
def prune (o : Options) (s : Source) (fetchAt : ℤ) (now : Time) : Source :=
  if o.kept ≤ 0 then s
  else if fetchAt < s.lastPruneAt + pruneMinInterval then s
  else
    let l := pruned o now s.ledger
    { s with
      lastPruneAt := fetchAt
      ledger := nonempty l
      interest := s.interest \ emptied l }

/-! ## The other lock sections -/

/-- `_register_interest`: whether one of the ids is new. -/
def registerInterest (s : Source) (ids : List ℕ) : Bool × Source :=
  (¬ ids.toFinset ⊆ s.interest, { s with interest := s.interest ∪ ids.toFinset })

def invalidate (s : Source) : Source := { s with lastFetchAt := ⊥ }

def forget (s : Source) (jobIds : List ℕ) : Source :=
  { s with interest := s.interest \ jobIds.toFinset, ledger := jobIds.foldl Dict.erase s.ledger }

/-- `note_poll_interval`: unless an interval was configured, half of the shortest one heard of. -/
def notePollInterval (o : Options) (s : Source) (intervalS : ℤ) : Source :=
  let interval := max 0 intervalS
  if o.refreshMinS.isSome ∨ s.minPollIntervalS.any (· ≤ interval) then s
  else { s with minPollIntervalS := some interval, refreshMinS := interval / 2 }

def shutdown (s : Source) : Source := { s with closed := true }

/-- `_note_outcome_locked`: the judgement of an older outcome does not replace a newer one's. -/
def noteOutcome (s : Source) (fetchAt : ℤ) (ok servedByFailover : Bool) : Source :=
  if (fetchAt : WithBot ℤ) ≤ s.healthAt then s
  else { s with
    healthAt := fetchAt
    health := if ok then (if servedByFailover then .failover else .primary) else .down }

/-- A fetch that succeeded moves the clock of the last success, never back. -/
def succeed (s : Source) (fetchAt : ℤ) : Source :=
  if s.lastFetchAt < fetchAt then { s with lastFetchAt := fetchAt } else s

/-- A fetch that has not been taken over ends the flight. -/
def land (s : Source) (token : ℕ) : Source :=
  if s.fetchToken = some token then
    { s with fetching := false, fetchDeadline := ⊤, gen := s.gen + 1 }
  else s

/-- What a fetch that succeeded leaves in the source. -/
def takeIn (o : Options) (s : Source) (fetchAt : ℤ) (now : Time) :
    Option (List JobStatus) → Source
  | none => s
  | some sts => ({ s with ledger := merge o s sts now fetchAt }.succeed fetchAt).prune o fetchAt now

/-- The last section of `_fetch_worker`; `statuses` is `none` when the fetch failed. -/
def finish (o : Options) (s : Source) (token : ℕ) (fetchAt : ℤ) (now : Time)
    (statuses : Option (List JobStatus)) (servedByFailover : Bool) : Source :=
  let s := { s with inflight := s.inflight - 1 }.takeIn o fetchAt now statuses
  (s.land token).noteOutcome fetchAt statuses.isSome servedByFailover

/-- `_start_fetch_locked` up to the start of the thread. -/
def startFetch (o : Options) (s : Source) (token : ℕ) (clock : ℤ) : Source :=
  { s with
    fetching := true
    fetchToken := some token
    fetchDeadline := (clock + o.waitTimeout : ℤ)
    inflight := s.inflight + 1 }

/-- `use_failover` in `_start_fetch_locked`. -/
def useFailover (o : Options) (s : Source) : Bool := o.failover && 0 < s.primaryUnreturned

/-- The rows `statuses_by_ids` returns. -/
def statuses (s : Source) (ids : List ℕ) : List JobStatus :=
  ids.flatMap fun id => ((s.ledger.get? id).getD ∅).values.map Entry.status

end Source

end Lsfmgr.Status
