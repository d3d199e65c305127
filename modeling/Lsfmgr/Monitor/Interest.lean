import Mathlib
import Lsfmgr.Machinery.Pool
import Lsfmgr.Machinery.Tally
import Lsfmgr.Machinery.Transition
import Lsfmgr.Store.Shape
import Lsfmgr.Status.Order

/-!
# Monitor/Interest — who still reads an id when `query_ids` drops it

Asking a callback source for an id registers the id with it, also when no record holds the id.  So
`query_ids` cleans up behind itself: the last call under way for an id looks whether a record still
holds it, and makes the source forget it otherwise.  The calls are counted under a lock, which is
free during the query itself and held from the moment a call is counted out until its clean-up is
done.

While a clean-up runs, nobody is counted in; hence what it drops is read by nobody
(`Inv.finished`).
-/

namespace Lsfmgr.Monitor.Interest

open Machinery Status

/-! ## What a call consults -/

/-- Where a call looks for the records of its ids. -/
inductive Scope
  | all
  | jobset (jobsetId : String)
  | keys (jobsetId : String) (jobKeys : List String)
  deriving DecidableEq

namespace Scope

/-- The scope that `jobset_id` and `job_keys` stand for. -/
def of (jobsetId : String) : Option (List String) → Scope
  | some jobKeys => if jobsetId = "" then .all else .keys jobsetId jobKeys
  | none => if jobsetId = "" then .all else .jobset jobsetId

/-- The jobsets that are read one after the other; `find_jobs` takes a listing, unless it is asked
for no id at all. -/
def jobsets (listing : InMemoryStore) (finished : List ℕ) : Scope → List String
  | .all => if finished = [] then [] else listing.listJobsets.map (·.jobsetId)
  | .jobset js => [js]
  | .keys js _ => [js]

/-- The records of a jobset, none if it has been deleted. -/
def jobsOf (store : InMemoryStore) (js : String) : List JobRecord :=
  match store.getJobs js with
  | .ok jobs => jobs
  | .error _ => []

/-- The records one reading returns. -/
def records (store : InMemoryStore) (finished : List ℕ) (js : String) : Scope → List JobRecord
  | .all => (jobsOf store js).filter fun r => r.jobId.any (· ∈ finished)
  | .jobset _ => jobsOf store js
  | .keys _ jobKeys => (store.getJobsByKeys js jobKeys).values

/-- The places whose records count. -/
def Consults (listing : InMemoryStore) (js k : String) : Scope → Prop
  | .all => js ∈ listing.jobsets.keys
  | .jobset js' => js = js'
  | .keys js' jobKeys => js = js' ∧ k ∈ jobKeys

end Scope

/-! ## The calls -/

/-- Where a call of `query_ids` stands. -/
inductive Stage
  /-- In the `try` clause. -/
  | asking
  /-- Counted out, as the last call for the ids `finished`. -/
  | cleaning (finished : List ℕ)
  /-- Reading the jobsets `todo`; the ids of the records read so far are `tracked`.  Not part of the
  program: the store when the jobsets were listed, and the readings made, each with its store. -/
  | scanning (finished tracked : List ℕ) (todo : List String) (listing : InMemoryStore)
      (seen : List (String × InMemoryStore))

/-- A call under way, with the set of its ids. -/
structure Call where
  ids : List ℕ
  scope : Scope
  stage : Stage

namespace Call

def asking (c : Call) : Bool :=
  match c.stage with
  | .asking => true
  | _ => false

/-- The call counts for the id. -/
def asks (id : ℕ) (c : Call) : Bool := c.asking && decide (id ∈ c.ids)

/-- The ids the call was the last one for. -/
def finished (c : Call) : List ℕ :=
  match c.stage with
  | .asking => []
  | .cleaning finished => finished
  | .scanning finished _ _ _ _ => finished

/-- No record in the scope held the id when the call read it. -/
def Untracked (c : Call) (id : ℕ) : Prop :=
  ∃ finished tracked listing seen, c.stage = .scanning finished tracked [] listing seen ∧
    ∀ js k, c.scope.Consults listing js k → ∃ store, (js, store) ∈ seen ∧
      ∀ r, store.job? js k = some r → r.jobId ≠ some id

end Call

/-! ## The system -/

/-- The store, the source, and the table of a querier. -/
structure State where
  store : InMemoryStore := {}
  src : Source
  idQueries : Dict ℕ ℕ := ∅
  idQueryLock : Bool := false
  calls : List Call := []

/-- The sections of a call after the one that counts it in. -/
inductive Section
  /-- `statuses_by_ids` registers the interest. -/
  | register
  /-- The query has returned or raised: the call is counted out. -/
  | leave
  | list
  | read
  | drop
  deriving DecidableEq

/-- What happens.  The other sections of the source change neither its interest nor its ledger. -/
inductive Act
  | write (op : InMemoryStore.Op)
  /-- A fetch returns. -/
  | respond (r : Response)
  /-- `forget_status`, called from elsewhere. -/
  | forget (jobIds : List ℕ)
  | enter (jobIds : List ℕ) (jobsetId : String) (jobKeys : Option (List String))
  | call (i : ℕ) (sec : Section)

/-- The act is one of a call. -/
def Act.ofQuery : Act → Bool
  | .enter .. | .call .. => true
  | _ => false

namespace State

/-- The number of calls in their `try` clause that include the id. -/
def active (s : State) (id : ℕ) : ℕ := s.calls.countP (Call.asks id)

/-- An id is counted out; the second list collects those nobody asks for any more. -/
def countOut (acc : Dict ℕ ℕ × List ℕ) (jid : ℕ) : Option (Dict ℕ ℕ × List ℕ) :=
  (acc.1.get? jid).map fun n =>
    (acc.1.countDown jid n, if n - 1 = 0 then jid :: acc.2 else acc.2)

def setStage (s : State) (i : ℕ) (c : Call) (stage : Stage) : State :=
  { s with calls := replaceAt s.calls i [{ c with stage }] }

def enter (s : State) (jobIds : List ℕ) (scope : Scope) : State :=
  { s with
    idQueries := jobIds.dedup.foldl Dict.countUp s.idQueries
    calls := ⟨jobIds.dedup, scope, .asking⟩ :: s.calls }

/-- The end of the `try` clause, up to the clean-up. -/
def leave (s : State) (i : ℕ) (c : Call) : Option State :=
  (c.ids.foldlM countOut (s.idQueries, [])).map fun out =>
    { s with idQueries := out.1, idQueryLock := true }.setStage i c (.cleaning out.2)

/-- The end of the clean-up. -/
def drop (s : State) (i : ℕ) (finished tracked : List ℕ) : State :=
  { s with
    src := s.src.forget (finished.filter (· ∉ tracked))
    idQueryLock := false
    calls := replaceAt s.calls i [] }

/-- A section of the call at place `i`. -/
def act (s : State) (i : ℕ) (c : Call) : Section → Option State
  | .register =>
    match c.stage with
    | .asking => some { s with src := (s.src.registerInterest c.ids).2 }
    | _ => none
  | .leave =>
    match c.stage with
    | .asking => if s.idQueryLock then none else s.leave i c
    | _ => none
  | .list =>
    match c.stage with
    | .cleaning finished =>
      some (s.setStage i c (.scanning finished [] (c.scope.jobsets s.store finished) s.store []))
    | _ => none
  | .read =>
    match c.stage with
    | .scanning finished tracked (js :: todo) listing seen =>
      some (s.setStage i c (.scanning finished
        (tracked ++ (c.scope.records s.store finished js).filterMap (·.jobId)) todo listing
        (seen ++ [(js, s.store)])))
    | _ => none
  | .drop =>
    match c.stage with
    | .scanning finished tracked [] _ _ => some (s.drop i finished tracked)
    | _ => none

def step (o : Options) (s : State) : Act → Option State
  | .write op => some { s with store := (s.store.perform op).2 }
  | .respond r => some { s with src := s.src.receive o r }
  | .forget jobIds => some { s with src := s.src.forget jobIds }
  | .enter jobIds jobsetId jobKeys =>
    if s.idQueryLock then none else some (s.enter jobIds (.of jobsetId jobKeys))
  | .call i sec => (s.calls[i]?).bind fun c => s.act i c sec

end State

/-- The queries of a manager over a new source. -/
def system (o : Options) : System State Act where
  init s := s = { src := o.source }
  step := State.step o

/-! ## What a reading finds -/

namespace Scope

variable {store listing : InMemoryStore} {finished : List ℕ} {js k : String} {scope : Scope}

theorem mem_jobsOf (hp : store.Placed) {r : JobRecord} (hr : store.job? js k = some r) :
    r ∈ jobsOf store js := by
  have hjs := InMemoryStore.mem_jobs_keys_of_job? hr
  obtain ⟨jobs, hj⟩ := Dict.mem_keys.mp hjs
  have hk : jobs.get? k = some r := by simpa [InMemoryStore.job?, hj] using hr
  rw [jobsOf, InMemoryStore.getJobs, if_pos ((hp.jobs_iff js).mp hjs), hj]
  exact Dict.mem_values.mpr ⟨k, hk⟩

/-- A record in the scope that holds one of the ids is read. -/
theorem mem_records (hp : store.Placed) (hc : scope.Consults listing js k) {r : JobRecord}
    (hr : store.job? js k = some r) {id : ℕ} (hid : r.jobId = some id) (hfin : id ∈ finished) :
    r ∈ scope.records store finished js := by
  cases scope with
  | all => exact List.mem_filter.mpr ⟨mem_jobsOf hp hr, by simp [hid, hfin]⟩
  | jobset => exact mem_jobsOf hp hr
  | keys _ jobKeys =>
    refine Dict.mem_values.mpr ⟨k, ?_⟩
    rw [InMemoryStore.get?_getJobsByKeys store jobKeys hc.2]
    exact hr

/-- Every jobset of the scope is read. -/
theorem mem_jobsets (hl : listing.Named) (hc : scope.Consults listing js k) (hf : finished ≠ []) :
    js ∈ scope.jobsets listing finished := by
  cases scope with
  | all =>
    rw [jobsets, if_neg hf]
    exact hl.mem_listJobsets hc
  | jobset => exact List.mem_singleton.mpr hc
  | keys => exact List.mem_singleton.mpr hc.1

end Scope

/-! ## Counting a call out -/

namespace State

/-- Counting out the ids of a call, each of which is counted. -/
theorem foldlM_countOut {ids : List ℕ} (hids : ids.Nodup) {d : Dict ℕ ℕ} {f : ℕ → ℕ}
    (h : Tally d f) (hf : ∀ id ∈ ids, f id ≠ 0) (fin : List ℕ) :
    ∃ d' fin', ids.foldlM countOut (d, fin) = some (d', fin') ∧
      Tally d' (fun id => f id - ids.count id) ∧
      ∀ id, id ∈ fin' ↔ id ∈ fin ∨ id ∈ ids ∧ f id = 1 := by
  induction ids generalizing d f fin with
  | nil => exact ⟨d, fin, rfl, h, fun id => by simp⟩
  | cons jid ids ih =>
    rw [List.nodup_cons] at hids
    obtain ⟨hjid, hf⟩ := List.forall_mem_cons.mp hf
    have hget : d.get? jid = some (f jid) := h.get?_eq_some.mpr ⟨rfl, hjid⟩
    have hone : Tally (d.countDown jid (f jid)) fun id => f id - [jid].count id :=
      h.countDown (by simp; omega) fun id hne => by simp [Ne.symm hne]
    have hrest : ∀ id ∈ ids, f id - [jid].count id ≠ 0 := by
      intro id hid
      have hne : jid ≠ id := fun heq => hids.1 (heq ▸ hid)
      simpa [hne] using hf id hid
    obtain ⟨d', fin', hrun, htally, hmem⟩ :=
      ih hids.2 hone hrest (if f jid - 1 = 0 then jid :: fin else fin)
    refine ⟨d', fin', ?_, htally.congr fun id => ?_, fun id => ?_⟩
    · rw [List.foldlM_cons, countOut, hget]
      exact hrun
    · rw [List.count_cons, List.count_singleton]
      omega
    · rw [hmem]
      by_cases hid : id = jid
      · subst hid
        have hlast : f id - 1 = 0 ↔ f id = 1 := by omega
        by_cases h1 : f id = 1 <;> simp [hids.1, h1, hlast]
      · have hne : jid ≠ id := Ne.symm hid
        have hfin : id ∈ (if f jid - 1 = 0 then jid :: fin else fin) ↔ id ∈ fin := by
          split <;> simp [hid]
        rw [hfin]
        simp [hid, hne]

end State

/-! ## The invariant -/

/-- What a clean-up has read so far. -/
def Call.Scanned (c : Call) : Prop :=
  match c.stage with
  | .scanning finished tracked todo listing seen =>
    seen.map Prod.fst ++ todo = c.scope.jobsets listing finished ∧ listing.Named ∧
      ∀ p ∈ seen, p.2.Placed ∧ ∀ r ∈ c.scope.records p.2 finished p.1, ∀ id,
        r.jobId = some id → id ∈ tracked
  | _ => True

/-- **The invariant of the table and its lock.** -/
structure Inv (s : State) : Prop where
  represented : s.store.Represented
  named : s.store.Named
  nodup : ∀ c ∈ s.calls, c.ids.Nodup
  tally : Tally s.idQueries s.active
  /-- A call that is not in its `try` clause holds the lock. -/
  lock : s.calls.countP (fun c => !c.asking) = s.idQueryLock.toNat
  /-- Nobody asks for what is being cleaned up. -/
  finished : ∀ c ∈ s.calls, ∀ id ∈ c.finished, s.active id = 0
  scanned : ∀ c ∈ s.calls, c.Scanned

namespace Inv

variable {s s' : State} {i : ℕ} {c : Call}

/-- A source that changes is no matter. -/
theorem source (h : Inv s) (src : Source) : Inv { s with src } :=
  ⟨h.represented, h.named, h.nodup, h.tally, h.lock, h.finished, h.scanned⟩

theorem write (h : Inv s) (op : InMemoryStore.Op) :
    Inv { s with store := (s.store.perform op).2 } :=
  ⟨h.represented.perform op, h.named.perform h.represented.placed op, h.nodup, h.tally, h.lock,
    h.finished, h.scanned⟩

/-- While the lock is free, every call is in its `try` clause. -/
theorem asking (h : Inv s) (hfree : s.idQueryLock = false) (hc : c ∈ s.calls) :
    c.asking = true := by
  have hnone := h.lock
  rw [hfree, Bool.toNat_false, List.countP_eq_zero] at hnone
  simpa using hnone c hc

theorem finished_eq_nil (h : c.asking = true) : c.finished = [] := by
  rcases c with ⟨ids, scope, _ | _ | _⟩
  · rfl
  · cases h
  · cases h

/-- A call that is not in its `try` clause and goes on, or ends, does not count. -/
theorem active_setStage (hc : s.calls[i]? = some c) (hs : c.asking = false) (cs : List Call)
    (hcs : ∀ c' ∈ cs, c'.asking = false) (id : ℕ) :
    (replaceAt s.calls i cs).countP (Call.asks id) = s.active id := by
  have hcount := countP_replaceAt (Call.asks id) hc cs
  have hone : [c].countP (Call.asks id) = 0 := by
    rw [List.countP_eq_zero]
    simp [Call.asks, hs]
  have hnew : cs.countP (Call.asks id) = 0 := by
    rw [List.countP_eq_zero]
    intro c' hc'
    simp [Call.asks, hcs c' hc']
  rw [State.active]
  omega

/-- **A call is counted in.** -/
theorem enter (h : Inv s) (hfree : s.idQueryLock = false) (jobIds : List ℕ) (scope : Scope) :
    Inv (s.enter jobIds scope) := by
  have hactive : ∀ id, (s.enter jobIds scope).active id
      = s.active id + jobIds.dedup.count id := by
    intro id
    have hone : jobIds.dedup.count id = if id ∈ jobIds.dedup then 1 else 0 := by
      split
      case isTrue hid => exact List.count_eq_one_of_mem (List.nodup_dedup _) hid
      case isFalse hid => exact List.count_eq_zero_of_not_mem hid
    rw [hone, State.active, State.enter, List.countP_cons]
    simp [State.active, Call.asks, Call.asking]
  refine ⟨h.represented, h.named, ?_, (h.tally.foldl_countUp _).congr hactive, ?_, ?_, ?_⟩
  · exact List.forall_mem_cons.mpr ⟨List.nodup_dedup _, h.nodup⟩
  · have hlock := h.lock
    rw [State.enter, List.countP_cons]
    simpa [Call.asking] using hlock
  · refine List.forall_mem_cons.mpr ⟨?_, fun c hc => ?_⟩
    · intro id hid
      cases hid
    · rw [finished_eq_nil (h.asking hfree hc)]
      intro id hid
      cases hid
  · exact List.forall_mem_cons.mpr ⟨trivial, h.scanned⟩

/-- Counting a call out does not raise. -/
theorem leave_succeeds (h : Inv s) (hc : s.calls[i]? = some c) (hs : c.asking = true) :
    ∃ d fin, c.ids.foldlM State.countOut (s.idQueries, []) = some (d, fin) ∧
      Tally d (fun id => s.active id - c.ids.count id) ∧
      ∀ id, id ∈ fin ↔ id ∈ c.ids ∧ s.active id = 1 := by
  have hmem := List.mem_of_getElem? hc
  have hpos : ∀ id ∈ c.ids, s.active id ≠ 0 := by
    intro id hid hzero
    exact List.countP_eq_zero.mp hzero c hmem (by simp [Call.asks, hs, hid])
  obtain ⟨d, fin, hrun, ht, hfin⟩ := State.foldlM_countOut (h.nodup c hmem) h.tally hpos []
  exact ⟨d, fin, hrun, ht, fun id => by simp [hfin]⟩

/-- What counting a call out does to the number of calls for an id. -/
theorem active_leave (h : Inv s) (hc : s.calls[i]? = some c) (hs : c.asking = true)
    (fin : List ℕ) (id : ℕ) :
    (replaceAt s.calls i [{ c with stage := .cleaning fin }]).countP (Call.asks id)
      = s.active id - c.ids.count id := by
  have hcount := countP_replaceAt (Call.asks id) hc [{ c with stage := .cleaning fin }]
  have hnew : [{ c with stage := .cleaning fin }].countP (Call.asks id) = 0 := rfl
  have hold : [c].countP (Call.asks id) = c.ids.count id := by
    by_cases hid : id ∈ c.ids
    · rw [List.count_eq_one_of_mem (h.nodup c (List.mem_of_getElem? hc)) hid]
      simp [Call.asks, hs, hid]
    · rw [List.count_eq_zero_of_not_mem hid]
      simp [Call.asks, hid]
  rw [State.active]
  omega

/-- **A call is counted out** and takes the lock. -/
theorem leave (h : Inv s) (hc : s.calls[i]? = some c) (hs : c.asking = true)
    (hfree : s.idQueryLock = false) (hl : s.leave i c = some s') : Inv s' := by
  obtain ⟨d, fin, hrun, ht, hfin⟩ := h.leave_succeeds hc hs
  rw [State.leave, hrun] at hl
  obtain rfl := Option.some.inj hl
  have hactive := h.active_leave hc hs fin
  refine ⟨h.represented, h.named, ?_, ht.congr hactive, ?_, ?_, ?_⟩
  · intro c' hc'
    obtain hc' | hc' := mem_replaceAt hc'
    · exact h.nodup c' hc'
    · obtain rfl := List.mem_singleton.mp hc'
      exact h.nodup c (List.mem_of_getElem? hc)
  · have hcount := countP_replaceAt (fun c => !c.asking) hc [{ c with stage := .cleaning fin }]
    have hnew : Call.asking { c with stage := .cleaning fin } = false := rfl
    have hlock := h.lock
    rw [hfree, Bool.toNat_false] at hlock
    simp only [List.countP_cons, List.countP_nil, hs, hnew, Bool.not_true, Bool.not_false,
      if_pos] at hcount
    simp only [State.setStage, Bool.toNat_true]
    simp at hcount
    omega
  · intro c' hc' id hid
    obtain hc' | hc' := mem_replaceAt hc'
    · rw [finished_eq_nil (h.asking hfree hc')] at hid
      cases hid
    · obtain rfl := List.mem_singleton.mp hc'
      obtain ⟨hid, hone⟩ := (hfin id).mp hid
      refine (hactive id).trans ?_
      rw [hone, List.count_eq_one_of_mem (h.nodup c (List.mem_of_getElem? hc)) hid]
  · intro c' hc'
    obtain hc' | hc' := mem_replaceAt hc'
    · exact h.scanned c' hc'
    · obtain rfl := List.mem_singleton.mp hc'
      trivial

/-- **A clean-up goes on** with what it was counted out for. -/
theorem setStage (h : Inv s) (hc : s.calls[i]? = some c) (hs : c.asking = false) {stage : Stage}
    (hstage : Call.asking { c with stage } = false)
    (hfin : Call.finished { c with stage } = c.finished)
    (hscan : Call.Scanned { c with stage }) : Inv (s.setStage i c stage) := by
  have hactive := active_setStage hc hs [{ c with stage }]
    (List.forall_mem_singleton.mpr hstage)
  have hmem := List.mem_of_getElem? hc
  refine ⟨h.represented, h.named, ?_, h.tally.congr hactive, ?_, ?_, ?_⟩
  · intro c' hc'
    obtain hc' | hc' := mem_replaceAt hc'
    · exact h.nodup c' hc'
    · obtain rfl := List.mem_singleton.mp hc'
      exact h.nodup c hmem
  · have hcount := countP_replaceAt (fun c => !c.asking) hc [{ c with stage }]
    simp only [List.countP_cons, List.countP_nil, hs, hstage] at hcount
    have hlock := h.lock
    simp only [State.setStage]
    omega
  · intro c' hc' id hid
    refine (hactive id).trans ?_
    obtain hc' | hc' := mem_replaceAt hc'
    · exact h.finished c' hc' id hid
    · obtain rfl := List.mem_singleton.mp hc'
      exact h.finished c hmem id (hfin ▸ hid)
  · intro c' hc'
    obtain hc' | hc' := mem_replaceAt hc'
    · exact h.scanned c' hc'
    · obtain rfl := List.mem_singleton.mp hc'
      exact hscan

/-- **The clean-up ends** and lets go of the lock. -/
theorem drop (h : Inv s) (hc : s.calls[i]? = some c) (hs : c.asking = false)
    (finished tracked : List ℕ) : Inv (s.drop i finished tracked) := by
  have hactive := active_setStage hc hs [] (fun _ hc' => by cases hc')
  have hkept : ∀ c' ∈ replaceAt s.calls i [], c' ∈ s.calls := by
    intro c' hc'
    obtain hc' | hc' := mem_replaceAt hc'
    · exact hc'
    · cases hc'
  refine ⟨h.represented, h.named, fun c' hc' => h.nodup c' (hkept c' hc'),
    h.tally.congr hactive, ?_, ?_, fun c' hc' => h.scanned c' (hkept c' hc')⟩
  · have hcount := countP_replaceAt (fun c => !c.asking) hc []
    simp only [List.countP_cons, List.countP_nil, hs] at hcount
    have hlock := h.lock
    simp only [State.drop, Bool.toNat_false]
    have hle := s.idQueryLock.toNat_le
    simp at hcount
    omega
  · intro c' hc' id hid
    exact (hactive id).trans (h.finished c' (hkept c' hc') id hid)

end Inv

/-! ## Every step -/

section Step

variable {o : Options} {s s' : State} {i : ℕ} {c : Call} {sec : Section} {a : Act}

/-- What a section of a call can do. -/
theorem act_cases (h : s.act i c sec = some s') :
    (sec = .register ∧ c.stage = .asking ∧
        s' = { s with src := (s.src.registerInterest c.ids).2 }) ∨
      (sec = .leave ∧ c.stage = .asking ∧ s.idQueryLock = false ∧ s.leave i c = some s') ∨
      (∃ fin, sec = .list ∧ c.stage = .cleaning fin ∧
        s' = s.setStage i c (.scanning fin [] (c.scope.jobsets s.store fin) s.store [])) ∨
      (∃ fin tracked js todo listing seen, sec = .read ∧
        c.stage = .scanning fin tracked (js :: todo) listing seen ∧
        s' = s.setStage i c (.scanning fin
          (tracked ++ (c.scope.records s.store fin js).filterMap (·.jobId)) todo listing
          (seen ++ [(js, s.store)]))) ∨
      ∃ fin tracked listing seen, sec = .drop ∧ c.stage = .scanning fin tracked [] listing seen ∧
        s' = s.drop i fin tracked := by
  cases sec with
  | register =>
    simp only [State.act] at h
    split at h
    case h_1 hs => exact .inl ⟨rfl, hs, (Option.some.inj h).symm⟩
    case h_2 => cases h
  | leave =>
    simp only [State.act] at h
    split at h
    case h_1 hs =>
      split at h
      case isTrue => cases h
      case isFalse hfree => exact .inr (.inl ⟨rfl, hs, by simpa using hfree, h⟩)
    case h_2 => cases h
  | list =>
    simp only [State.act] at h
    split at h
    case h_1 fin hs => exact .inr (.inr (.inl ⟨fin, rfl, hs, (Option.some.inj h).symm⟩))
    case h_2 => cases h
  | read =>
    simp only [State.act] at h
    split at h
    case h_1 fin tracked js todo listing seen hs =>
      exact .inr (.inr (.inr (.inl
        ⟨fin, tracked, js, todo, listing, seen, rfl, hs, (Option.some.inj h).symm⟩)))
    case h_2 => cases h
  | drop =>
    simp only [State.act] at h
    split at h
    case h_1 fin tracked listing seen hs =>
      exact .inr (.inr (.inr (.inr
        ⟨fin, tracked, listing, seen, rfl, hs, (Option.some.inj h).symm⟩)))
    case h_2 => cases h

theorem asking_of_stage {stage : Stage} (h : c.stage = stage) :
    c.asking = Call.asking { c with stage } := by
  subst h
  rfl

theorem finished_of_stage {stage : Stage} (h : c.stage = stage) :
    c.finished = Call.finished { c with stage } := by
  subst h
  rfl

theorem scanned_of_stage {stage : Stage} (h : c.stage = stage) (hc : c.Scanned) :
    Call.Scanned { c with stage } := by
  subst h
  exact hc

theorem Inv.act (h : Inv s) (hc : s.calls[i]? = some c) (hs : s.act i c sec = some s') :
    Inv s' := by
  obtain ⟨-, -, rfl⟩ | ⟨-, hstage, hfree, hl⟩ | ⟨fin, -, hstage, rfl⟩ |
    ⟨fin, tracked, js, todo, listing, seen, -, hstage, rfl⟩ |
        ⟨fin, tracked, _, _, -, hstage, rfl⟩ :=
    act_cases hs
  · exact h.source _
  · exact h.leave hc (asking_of_stage hstage) hfree hl
  · refine h.setStage hc (asking_of_stage hstage) rfl (finished_of_stage hstage).symm ?_
    exact ⟨rfl, h.named, fun p hp => by cases hp⟩
  · refine h.setStage hc (asking_of_stage hstage) rfl (finished_of_stage hstage).symm ?_
    obtain ⟨hlist, hnamed, hseen⟩ :=
      scanned_of_stage hstage (h.scanned c (List.mem_of_getElem? hc))
    refine ⟨?_, hnamed, fun p hp => ?_⟩
    · rw [← hlist, List.map_append, List.append_assoc]
      rfl
    · obtain hp | hp := List.mem_append.mp hp
      · obtain ⟨hplaced, hread⟩ := hseen p hp
        exact ⟨hplaced, fun r hr id hid => List.mem_append_left _ (hread r hr id hid)⟩
      · obtain rfl := List.mem_singleton.mp hp
        exact ⟨h.represented.placed, fun r hr id hid =>
          List.mem_append_right _ (List.mem_filterMap.mpr ⟨r, hr, hid⟩)⟩
  · exact h.drop hc (asking_of_stage hstage) fin tracked

/-- **Every step keeps the invariant.** -/
theorem Inv.step (h : Inv s) (hs : s.step o a = some s') : Inv s' := by
  cases a with
  | write op =>
    obtain rfl := Option.some.inj hs
    exact h.write op
  | respond r =>
    obtain rfl := Option.some.inj hs
    exact h.source _
  | forget jobIds =>
    obtain rfl := Option.some.inj hs
    exact h.source _
  | enter jobIds jobsetId jobKeys =>
    rw [State.step] at hs
    split at hs
    case isTrue => cases hs
    case isFalse hfree =>
      obtain rfl := Option.some.inj hs
      exact h.enter (by simpa using hfree) jobIds _
  | call i sec =>
    obtain ⟨c, hc, hs⟩ := Option.bind_eq_some_iff.mp hs
    exact h.act hc hs

theorem inv_of_reachable (h : (system o).Reachable s) : Inv s := by
  refine h.invariant (fun s hs => ?_) fun s a s' _ hi _ hs => hi.step hs
  obtain rfl : s = { src := o.source } := hs
  exact ⟨InMemoryStore.represented_empty, InMemoryStore.named_empty, (fun c hc => by cases hc),
    Tally.empty, rfl, (fun c hc => by cases hc), fun c hc => by cases hc⟩

end Step

/-! ## What a clean-up drops -/

/-- The source drops the id, or what it knows of it. -/
def State.Loses (s s' : State) (id : ℕ) : Prop :=
  id ∈ s.src.interest ∧ id ∉ s'.src.interest ∨ s'.src.ledger.get? id ≠ s.src.ledger.get? id

section Main

variable {o : Options} {s s' : State} {i id : ℕ} {c : Call} {sec : Section} {a : Act}

/-- What a clean-up has found no record for. -/
theorem Inv.untracked (h : Inv s) (hc : s.calls[i]? = some c) {fin tracked : List ℕ}
    {listing : InMemoryStore} {seen : List (String × InMemoryStore)}
    (hstage : c.stage = .scanning fin tracked [] listing seen) (hid : id ∈ fin)
    (hout : id ∉ tracked) : s.active id = 0 ∧ c.Untracked id := by
  have hmem := List.mem_of_getElem? hc
  refine ⟨h.finished c hmem id ((finished_of_stage hstage).symm ▸ hid),
    fin, tracked, listing, seen, hstage, fun js k hcons => ?_⟩
  obtain ⟨hlist, hnamed, hseen⟩ := scanned_of_stage hstage (h.scanned c hmem)
  have hjs : js ∈ seen.map Prod.fst := by
    rw [← List.append_nil (seen.map Prod.fst), hlist]
    exact Scope.mem_jobsets hnamed hcons (List.ne_nil_of_mem hid)
  obtain ⟨⟨js, store⟩, hp, rfl⟩ := List.mem_map.mp hjs
  obtain ⟨hplaced, hread⟩ := hseen _ hp
  refine ⟨store, hp, fun r hr hrid => hout ?_⟩
  exact hread r (Scope.mem_records hplaced hcons hr hrid hid) id hrid

/-- Forgetting loses the ids it is given. -/
theorem mem_of_loses_forget {ids : List ℕ} (hs : s'.src = s.src.forget ids)
    (h : s.Loses s' id) : id ∈ ids := by
  by_contra hid
  obtain ⟨hin, hout⟩ | hledger := h
  · rw [hs] at hout
    exact hout (Finset.mem_sdiff.mpr ⟨hin, by simpa using hid⟩)
  · rw [hs, Source.forget, Dict.get?_foldl_erase, if_neg hid] at hledger
    exact hledger rfl

/-- A step that leaves the source alone loses nothing. -/
theorem not_loses (h : s'.src = s.src) : ¬ s.Loses s' id := by
  rintro (⟨hin, hout⟩ | hledger)
  · exact hout (h ▸ hin)
  · exact hledger (by rw [h])

/-- Of the sections of a call, the clean-up alone loses ids: those it has found no record for. -/
theorem loses_of_act (h : s.act i c sec = some s') (hl : s.Loses s' id) :
    ∃ fin tracked listing seen, sec = .drop ∧ c.stage = .scanning fin tracked [] listing seen ∧
      id ∈ fin ∧ id ∉ tracked := by
  obtain ⟨-, -, rfl⟩ | ⟨-, -, -, hleave⟩ | ⟨_, -, -, rfl⟩ | ⟨_, _, _, _, _, _, -, -, rfl⟩ |
    ⟨fin, tracked, listing, seen, hsec, hstage, rfl⟩ := act_cases h
  · obtain ⟨hin, hout⟩ | hledger := hl
    · exact absurd (Finset.mem_union_left _ hin) hout
    · exact absurd rfl hledger
  · obtain ⟨out, -, rfl⟩ := Option.map_eq_some_iff.mp hleave
    exact absurd hl (not_loses rfl)
  · exact absurd hl (not_loses rfl)
  · exact absurd hl (not_loses rfl)
  · have hid := mem_of_loses_forget rfl hl
    rw [List.mem_filter] at hid
    exact ⟨fin, tracked, listing, seen, hsec, hstage, hid.1, by simpa using hid.2⟩

/-- **The clean-up of interest cuts nobody off.**  The table counts, for each id, the calls in their
`try` clause that include it, and is empty when there are none; counting a call out never raises;
and of all acts of the calls the last section of a clean-up alone makes the source lose an id, one
that no call under way includes and that no record in the scope of the call held when it read the
store. -/
theorem cleanUp_spares (h : (system o).Reachable s) :
    (∀ id, s.idQueries.get? id = if s.active id = 0 then none else some (s.active id)) ∧
      (s.calls = [] → s.idQueries = ∅) ∧
      (∀ i c, s.calls[i]? = some c → c.asking = true → s.idQueryLock = false →
        ∃ s', s.step o (.call i .leave) = some s') ∧
      ∀ a s', a.ofQuery = true → s.step o a = some s' → ∀ id, s.Loses s' id →
        ∃ i c, a = .call i .drop ∧ s.calls[i]? = some c ∧ s.active id = 0 ∧ c.Untracked id := by
  have hi := inv_of_reachable h
  refine ⟨hi.tally, fun hidle => hi.tally.eq_empty fun id => by rw [State.active, hidle]; rfl,
    fun i c hc hs hfree => ?_, fun a s' hq hs id hl => ?_⟩
  · obtain ⟨d, fin, hrun, -⟩ := hi.leave_succeeds hc hs
    have hstage : c.stage = .asking := by
      rcases c with ⟨ids, scope, _ | _ | _⟩
      · rfl
      · cases hs
      · cases hs
    refine ⟨{ s with idQueries := d, idQueryLock := true }.setStage i c (.cleaning fin), ?_⟩
    simp only [State.step, hc, Option.bind_some, State.act, hstage, hfree, State.leave, hrun]
    rfl
  · cases a with
    | write | respond | forget => cases hq
    | enter jobIds jobsetId jobKeys =>
      rw [State.step] at hs
      split at hs
      case isTrue => cases hs
      case isFalse =>
        obtain rfl := Option.some.inj hs
        exact absurd hl (not_loses rfl)
    | call i sec =>
      obtain ⟨c, hc, hs⟩ := Option.bind_eq_some_iff.mp hs
      obtain ⟨fin, tracked, listing, seen, rfl, hstage, hid, hout⟩ := loses_of_act hs hl
      exact ⟨i, c, rfl, hc, hi.untracked hc hstage hid hout⟩

end Main

/-- A source without a failover. -/
def sampleOptions : Options := { failover := false, refreshMinS := none, waitTimeoutS := 0 }

/-- The jobset `j` has a job with the id 7.  A query of 7, 8 and 9 anywhere and one of 8 in the
jobset overlap; the first is about to end its clean-up: it drops 9. -/
def overlapping : List Act :=
  [.write (.insertJobset 0 { jobsetId := "j", intendedCount := 1 }),
    .write (.addJob 0 { jobsetId := "j", jobKey := "a", generation := 0, jobId := some 7 }),
    .enter [7, 8, 9] "" none, .enter [8] "j" none, .call 0 .register, .call 1 .register,
    .call 1 .leave, .call 1 .list, .call 1 .read]

theorem cleanUp_spares_overlapping : ∃ s s', (system sampleOptions).run
      { src := sampleOptions.source } overlapping = some s ∧
    s.step sampleOptions (.call 1 .drop) = some s' ∧
    s'.src.interest = {7, 8} ∧ s.idQueries.get? 8 = some 1 ∧
    ∃ c, s.calls[1]? = some c ∧ s.active 9 = 0 ∧ c.Untracked 9 := by
  have hrun : ((system sampleOptions).run { src := sampleOptions.source } overlapping).bind
      (fun s => (s.step sampleOptions (.call 1 .drop)).bind fun s' =>
        if 9 ∈ s.src.interest ∧ s'.src.interest = {7, 8} ∧ s.idQueries.get? 8 = some 1 then some ()
        else none) = some () := by decide +kernel
  obtain ⟨s, hs, hrest⟩ := Option.bind_eq_some_iff.mp hrun
  obtain ⟨s', hs', hrest⟩ := Option.bind_eq_some_iff.mp hrest
  obtain ⟨⟨hin, hleft, hcount⟩, -⟩ := Option.ite_none_right_eq_some.mp hrest
  have hout : 9 ∉ s'.src.interest := by rw [hleft]; decide
  obtain ⟨-, -, -, hdrop⟩ := cleanUp_spares (System.reachable_of_run (.init rfl) hs)
  obtain ⟨i, c, hact, hc, hactive, huntracked⟩ := hdrop _ s' rfl hs' 9 (.inl ⟨hin, hout⟩)
  obtain rfl : 1 = i := (Act.call.inj hact).1
  exact ⟨s, s', hs, hs', hleft, hcount, c, hc, hactive, huntracked⟩

end Lsfmgr.Monitor.Interest
