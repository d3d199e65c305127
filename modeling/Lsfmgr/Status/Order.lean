import Mathlib
import Lsfmgr.Machinery.Newest
import Lsfmgr.Status.Source

/-!
# Status/Order — the ledger does not depend on the order the responses come in

A fetch that was taken over may return after its successor.  Every entry carries the start time of
the fetch that brought it, so an entry is a register that keeps its newest write (`newest`),
whatever the refreshing of the run times does in between; the clock of the last success and the
health have clocks of their own.  As long as nothing is pruned, what a set of responses leaves in
the source is therefore the same for every order (`merge_order`).
-/

namespace Lsfmgr.Status

open Machinery

/-- The row without its run time, which the source refreshes by itself. -/
def withoutRuntime (st : JobStatus) : JobStatus := { st with runTimeS := none }

/-- What of an entry a later response can change. -/
def Entry.stamped (e : Entry) : ℤ × JobStatus := (e.fetchedAt, withoutRuntime e.status)

/-- The last row of a response for a job id and an array index. -/
def lastRow (sts : List JobStatus) (id : ℕ) (idx : Option ℕ) : Option JobStatus :=
  sts.reverse.find? fun st => st.jobId = id ∧ st.arrayIndex = idx

section Merge

variable {o : Options} {interest : Finset ℕ} {now : Time} {fetchAt : ℤ} {id : ℕ} {idx : Option ℕ}

@[simp] theorem entryAt_empty (id : ℕ) (idx : Option ℕ) : entryAt ∅ id idx = none := rfl

theorem entryAt_set (l : Ledger) (st : JobStatus) (e : Entry) (id : ℕ) (idx : Option ℕ) :
    entryAt (l.set st.jobId (((l.get? st.jobId).getD ∅).set st.arrayIndex e)) id idx
      = if st.jobId = id ∧ st.arrayIndex = idx then some e else entryAt l id idx := by
  by_cases hid : id = st.jobId
  · subst hid
    rw [entryAt, Dict.get?_set, if_pos rfl, Option.bind_some, Dict.get?_set]
    by_cases hidx : idx = st.arrayIndex
    · simp [hidx]
    · rw [if_neg hidx, if_neg fun h => hidx h.2.symm, entryAt]
      rcases l.get? st.jobId with _ | elems <;> rfl
  · rw [entryAt, Dict.get?_set, if_neg hid, if_neg fun h => hid h.1.symm, entryAt]

/-- One row is one write to the register of its key, if its id is of interest. -/
theorem stamped_absorb (acc : Ledger × List (ℕ × Option ℕ)) (st : JobStatus) (id : ℕ)
    (idx : Option ℕ) :
    (entryAt (absorb interest now fetchAt acc st).1 id idx).map Entry.stamped
      = if st.jobId ∈ interest ∧ st.jobId = id ∧ st.arrayIndex = idx then
          newer ((entryAt acc.1 id idx).map Entry.stamped) (fetchAt, withoutRuntime st)
        else (entryAt acc.1 id idx).map Entry.stamped := by
  rw [absorb]
  split
  case isTrue hout => rw [if_neg fun h => hout h.1]
  case isFalse hin =>
    have hin : st.jobId ∈ interest := not_not.mp hin
    split
    case isTrue hold =>
      obtain ⟨e, he, hlt⟩ : ∃ e, entryAt acc.1 st.jobId st.arrayIndex = some e ∧
          fetchAt < e.fetchedAt := by
        rcases he : entryAt acc.1 st.jobId st.arrayIndex with _ | e
        · simp [he] at hold
        · exact ⟨e, rfl, by simpa [he] using hold⟩
      split
      case isTrue hkey =>
        obtain ⟨-, rfl, rfl⟩ := hkey
        rw [he, Option.map_some, newer, if_pos (show fetchAt < e.stamped.1 from hlt)]
      case isFalse => rfl
    case isFalse hnew =>
      rw [entryAt_set]
      by_cases hkey : st.jobId = id ∧ st.arrayIndex = idx
      · obtain ⟨rfl, rfl⟩ := hkey
        rw [if_pos ⟨rfl, rfl⟩, if_pos ⟨hin, rfl, rfl⟩]
        rcases he : entryAt acc.1 st.jobId st.arrayIndex with _ | e
        · rfl
        · have hge : ¬fetchAt < e.stamped.1 := by simpa [he, Entry.stamped] using hnew
          rw [Option.map_some, Option.map_some, newer, if_neg hge]
          rfl
      · rw [if_neg hkey, if_neg fun h => hkey h.2]

/-- All rows of a response are one write to the register of a key: that of its last row. -/
theorem stamped_foldl_absorb (sts : List JobStatus) (acc : Ledger × List (ℕ × Option ℕ))
    (hid : id ∈ interest) :
    (entryAt (sts.foldl (absorb interest now fetchAt) acc).1 id idx).map Entry.stamped
      = match lastRow sts id idx with
        | none => (entryAt acc.1 id idx).map Entry.stamped
        | some st =>
          newer ((entryAt acc.1 id idx).map Entry.stamped) (fetchAt, withoutRuntime st) := by
  induction sts using List.reverseRecOn with
  | nil => rfl
  | append_singleton sts st ih =>
    rw [List.foldl_append, List.foldl_cons, List.foldl_nil, stamped_absorb, ih]
    by_cases hkey : st.jobId = id ∧ st.arrayIndex = idx
    · have hlast : lastRow (sts ++ [st]) id idx = some st := by
        simp [lastRow, hkey]
      rw [hlast, if_pos ⟨hkey.1 ▸ hid, hkey⟩]
      rcases lastRow sts id idx with _ | st'
      · rfl
      · -- both rows come from the same fetch
        rcases (entryAt acc.1 id idx).map Entry.stamped with _ | p
        · simp [newer]
        · by_cases hp : fetchAt < p.1 <;> simp [newer, hp]
    · have hlast : lastRow (sts ++ [st]) id idx = lastRow sts id idx := by
        simp [lastRow, hkey]
      rw [hlast, if_neg fun h => hkey h.2]

/-- Ids nobody asked for get no entry. -/
theorem stamped_foldl_absorb_out (sts : List JobStatus) (acc : Ledger × List (ℕ × Option ℕ))
    (hid : id ∉ interest) :
    (entryAt (sts.foldl (absorb interest now fetchAt) acc).1 id idx).map Entry.stamped
      = (entryAt acc.1 id idx).map Entry.stamped := by
  induction sts generalizing acc with
  | nil => rfl
  | cons st sts ih =>
    rw [List.foldl_cons, ih, stamped_absorb, if_neg]
    rintro ⟨hin, rfl, -⟩
    exact hid hin

theorem stamped_refreshed (e : Entry) : (e.refreshed now).stamped = e.stamped := by
  rw [Entry.refreshed]
  split
  · dsimp only
    split <;> rfl
  · rfl

/-- The refreshing touches run times only. -/
theorem stamped_refreshRuntimes (l : Ledger) (ks : List (ℕ × Option ℕ)) :
    (entryAt (refreshRuntimes l now ks) id idx).map Entry.stamped
      = (entryAt l id idx).map Entry.stamped := by
  rw [entryAt, refreshRuntimes, Dict.get?_mapValues, entryAt]
  rcases l.get? id with _ | elems
  · rfl
  · rw [Option.map_some, Option.bind_some, Dict.get?_mapValues, Option.bind_some, Option.map_map]
    rcases elems.get? idx with _ | e
    · rfl
    · simp only [Option.map_some, Function.comp_apply]
      split
      · rfl
      · rw [stamped_refreshed]

/-- **What merging a response does to a register.** -/
theorem stamped_merge (s : Source) (sts : List JobStatus) (hid : id ∈ s.interest) :
    (entryAt (merge o s sts now fetchAt) id idx).map Entry.stamped
      = match lastRow sts id idx with
        | none => (entryAt s.ledger id idx).map Entry.stamped
        | some st =>
          newer ((entryAt s.ledger id idx).map Entry.stamped) (fetchAt, withoutRuntime st) := by
  rw [merge, ← stamped_foldl_absorb sts (s.ledger, []) hid]
  split
  · exact stamped_refreshRuntimes _ _
  · rfl

theorem stamped_merge_out (s : Source) (sts : List JobStatus) (hid : id ∉ s.interest) :
    (entryAt (merge o s sts now fetchAt) id idx).map Entry.stamped
      = (entryAt s.ledger id idx).map Entry.stamped := by
  rw [merge, ← stamped_foldl_absorb_out sts (s.ledger, []) hid]
  split
  · exact stamped_refreshRuntimes _ _
  · rfl

end Merge

/-! ## Sequences of responses -/

/-- What a fetch brings back: its token and clocks, the rows unless it failed, and which callback
answered. -/
structure Response where
  token : ℕ
  fetchAt : ℤ
  now : Time
  statuses : Option (List JobStatus)
  servedByFailover : Bool

namespace Response

/-- The row of the response for a job id and an array index. -/
def row? (r : Response) (id : ℕ) (idx : Option ℕ) : Option JobStatus :=
  r.statuses.bind fun sts => lastRow sts id idx

/-- The health the response speaks for. -/
def verdict (r : Response) : FetcherState :=
  if r.statuses.isSome then (if r.servedByFailover then .failover else .primary) else .down

/-- The write of the response to the register of a key. -/
def write? (id : ℕ) (idx : Option ℕ) (r : Response) : Option (ℤ × JobStatus) :=
  (r.row? id idx).map fun st => (r.fetchAt, withoutRuntime st)

end Response

namespace Source

def receive (o : Options) (s : Source) (r : Response) : Source :=
  s.finish o r.token r.fetchAt r.now r.statuses r.servedByFailover

def receiveAll (o : Options) (s : Source) (rs : List Response) : Source := rs.foldl (receive o) s

/-- No entry is dropped on receiving the response. -/
def NothingPruned (o : Options) (s : Source) (r : Response) : Prop :=
  ∀ sts, r.statuses = some sts →
    (s.takeIn o r.fetchAt r.now r.statuses).ledger = merge o s sts r.now r.fetchAt ∧
      (s.takeIn o r.fetchAt r.now r.statuses).interest = s.interest

/-- No entry is dropped on receiving the responses one after the other. -/
def Unpruned (o : Options) : Source → List Response → Prop
  | _, [] => True
  | s, r :: rs => s.NothingPruned o r ∧ Unpruned o (s.receive o r) rs

/-- Nothing has been received yet. -/
structure Blank (s : Source) : Prop where
  ledger : s.ledger = ∅
  lastFetchAt : s.lastFetchAt = ⊥
  healthAt : s.healthAt = ⊥

/-! ## What one response changes -/

section Receive

variable {o : Options} {s : Source} {r : Response}

theorem land_frame (s : Source) (token : ℕ) :
    (s.land token).ledger = s.ledger ∧ (s.land token).interest = s.interest ∧
      (s.land token).lastFetchAt = s.lastFetchAt ∧ (s.land token).health = s.health ∧
      (s.land token).healthAt = s.healthAt := by
  rw [land]
  split <;> exact ⟨rfl, rfl, rfl, rfl, rfl⟩

theorem noteOutcome_frame (s : Source) (fetchAt : ℤ) (ok served : Bool) :
    (s.noteOutcome fetchAt ok served).ledger = s.ledger ∧
      (s.noteOutcome fetchAt ok served).interest = s.interest ∧
      (s.noteOutcome fetchAt ok served).lastFetchAt = s.lastFetchAt := by
  rw [noteOutcome]
  split <;> exact ⟨rfl, rfl, rfl⟩

theorem prune_frame (o : Options) (s : Source) (fetchAt : ℤ) (now : Time) :
    (s.prune o fetchAt now).lastFetchAt = s.lastFetchAt ∧
      (s.prune o fetchAt now).health = s.health ∧
      (s.prune o fetchAt now).healthAt = s.healthAt := by
  rw [prune]
  split
  · exact ⟨rfl, rfl, rfl⟩
  · split <;> exact ⟨rfl, rfl, rfl⟩

theorem succeed_frame (s : Source) (fetchAt : ℤ) :
    (s.succeed fetchAt).lastFetchAt = max s.lastFetchAt fetchAt ∧
      (s.succeed fetchAt).health = s.health ∧ (s.succeed fetchAt).healthAt = s.healthAt := by
  rw [succeed]
  split
  case isTrue h => exact ⟨(max_eq_right h.le).symm, rfl, rfl⟩
  case isFalse h => exact ⟨(max_eq_left (not_lt.mp h)).symm, rfl, rfl⟩

theorem takeIn_frame (o : Options) (s : Source) (fetchAt : ℤ) (now : Time)
    (statuses : Option (List JobStatus)) :
    (s.takeIn o fetchAt now statuses).lastFetchAt
        = (if statuses.isSome then max s.lastFetchAt fetchAt else s.lastFetchAt) ∧
      (s.takeIn o fetchAt now statuses).health = s.health ∧
      (s.takeIn o fetchAt now statuses).healthAt = s.healthAt := by
  rcases statuses with _ | sts
  · exact ⟨rfl, rfl, rfl⟩
  · obtain ⟨h₁, h₂, h₃⟩ := prune_frame o
      ({ s with ledger := merge o s sts now fetchAt }.succeed fetchAt) fetchAt now
    obtain ⟨h₁', h₂', h₃'⟩ := succeed_frame { s with ledger := merge o s sts now fetchAt } fetchAt
    exact ⟨h₁.trans h₁', h₂.trans h₂', h₃.trans h₃'⟩

/-- The count of the fetches under way plays no part in the merge. -/
theorem takeIn_inflight (o : Options) (s : Source) (n fetchAt : ℤ) (now : Time)
    (statuses : Option (List JobStatus)) :
    { s with inflight := n }.takeIn o fetchAt now statuses
      = { s.takeIn o fetchAt now statuses with inflight := n } := by
  rcases statuses with _ | sts
  · rfl
  · simp only [takeIn, succeed, prune, merge]
    by_cases hlate : s.lastFetchAt < fetchAt
    · simp only [if_pos hlate]
      split_ifs <;> rfl
    · simp only [if_neg hlate]
      split_ifs <;> rfl

/-- The clock of the last success. -/
theorem receive_lastFetchAt (o : Options) (s : Source) (r : Response) :
    (s.receive o r).lastFetchAt
      = if r.statuses.isSome then max s.lastFetchAt r.fetchAt else s.lastFetchAt := by
  rw [receive, finish, (noteOutcome_frame _ _ _ _).2.2, (land_frame _ _).2.2.1, takeIn_inflight]
  exact (takeIn_frame o s r.fetchAt r.now r.statuses).1

/-- The health and its clock. -/
theorem receive_health (o : Options) (s : Source) (r : Response) :
    (s.receive o r).healthAt = (if (r.fetchAt : WithBot ℤ) ≤ s.healthAt then s.healthAt
        else r.fetchAt) ∧
      (s.receive o r).health = if (r.fetchAt : WithBot ℤ) ≤ s.healthAt then s.health
        else r.verdict := by
  obtain ⟨-, hh, ha⟩ := takeIn_frame o s r.fetchAt r.now r.statuses
  rw [receive, finish, takeIn_inflight]
  obtain ⟨-, -, -, hh', ha'⟩ := land_frame
    { s.takeIn o r.fetchAt r.now r.statuses with inflight := s.inflight - 1 } r.token
  generalize Source.land _ r.token = t at hh' ha'
  have ht : t.healthAt = s.healthAt := ha'.trans ha
  rw [noteOutcome, ht]
  split
  case isTrue => exact ⟨ht, hh'.trans hh⟩
  case isFalse => exact ⟨rfl, rfl⟩

/-- **One response is one write to the register of each key.** -/
theorem receive_stamped (h : s.NothingPruned o r) (id : ℕ) (idx : Option ℕ) :
    (s.receive o r).interest = s.interest ∧
      (entryAt (s.receive o r).ledger id idx).map Entry.stamped
        = match if id ∈ s.interest then r.write? id idx else none with
          | none => (entryAt s.ledger id idx).map Entry.stamped
          | some w => newer ((entryAt s.ledger id idx).map Entry.stamped) w := by
  rw [receive, finish, (noteOutcome_frame _ _ _ _).1, (noteOutcome_frame _ _ _ _).2.1,
    (land_frame _ _).1, (land_frame _ _).2.1, takeIn_inflight]
  rcases hr : r.statuses with _ | sts
  · refine ⟨rfl, ?_⟩
    simp [takeIn, Response.write?, Response.row?, hr]
  · obtain ⟨hledger, hinterest⟩ := h sts hr
    rw [hr] at hledger hinterest
    refine ⟨hinterest, (congrArg (fun l => (entryAt l id idx).map Entry.stamped) hledger).trans ?_⟩
    by_cases hid : id ∈ s.interest
    · rw [stamped_merge _ _ hid, if_pos hid]
      rcases hrow : lastRow sts id idx with _ | st <;>
        simp [Response.write?, Response.row?, hr, hrow]
    · rw [stamped_merge_out _ _ hid, if_neg hid]

end Receive

/-! ## What a sequence of responses leaves -/

section ReceiveAll

variable {o : Options} {s : Source} {rs : List Response}

theorem receiveAll_concat (o : Options) (s : Source) (rs : List Response) (r : Response) :
    s.receiveAll o (rs ++ [r]) = (s.receiveAll o rs).receive o r := by
  simp [receiveAll, List.foldl_append]

theorem unpruned_concat {r : Response} : Unpruned o s (rs ++ [r]) ↔
    Unpruned o s rs ∧ (s.receiveAll o rs).NothingPruned o r := by
  induction rs generalizing s with
  | nil => simp [Unpruned, receiveAll]
  | cons r' rs ih =>
    rw [List.cons_append, Unpruned, Unpruned, ih, and_assoc]
    rfl

/-- A retention of zero switches pruning off. -/
theorem nothingPruned_of_off (ho : o.kept ≤ 0) (s : Source) (r : Response) :
    s.NothingPruned o r := by
  intro sts hr
  rw [hr]
  simp only [takeIn, prune, if_pos ho, succeed]
  split <;> exact ⟨rfl, rfl⟩

theorem unpruned_of_off (ho : o.kept ≤ 0) (rs : List Response) : Unpruned o s rs := by
  induction rs generalizing s with
  | nil => trivial
  | cons r rs ih => exact ⟨nothingPruned_of_off ho s r, ih⟩

/-- The entry of a key is its register after the writes of the responses. -/
theorem receiveAll_stamped (hs : s.Blank) (h : Unpruned o s rs) (id : ℕ) (idx : Option ℕ) :
    (s.receiveAll o rs).interest = s.interest ∧
      (entryAt (s.receiveAll o rs).ledger id idx).map Entry.stamped
        = if id ∈ s.interest then newest (rs.filterMap (Response.write? id idx)) else none := by
  induction rs using List.reverseRecOn with
  | nil => simp [receiveAll, hs.ledger]
  | append_singleton rs r ih =>
    obtain ⟨hrs, hr⟩ := unpruned_concat.mp h
    obtain ⟨hinterest, hentry⟩ := ih hrs
    obtain ⟨hinterest', hentry'⟩ := receive_stamped hr id idx
    rw [receiveAll_concat, hinterest', hentry', hinterest, hentry]
    refine ⟨rfl, ?_⟩
    by_cases hid : id ∈ s.interest
    · rw [if_pos hid, if_pos hid, if_pos hid, List.filterMap_append]
      rcases hw : r.write? id idx with _ | w
      · simp [hw]
      · simp [hw, newest_concat]
    · rw [if_neg hid, if_neg hid, if_neg hid]

/-- **The source holds what the responses say**, whatever the order they came in. -/
structure MergedBy (interest : Finset ℕ) (rs : List Response) (s : Source) : Prop where
  /-- The row of the response with the greatest start time that has one. -/
  row : ∀ id ∈ interest, ∀ idx, ∀ r ∈ rs, ∀ st, r.row? id idx = some st →
    (∀ r' ∈ rs, (r'.row? id idx).isSome → r'.fetchAt ≤ r.fetchAt) →
    ∃ e, entryAt s.ledger id idx = some e ∧ withoutRuntime e.status = withoutRuntime st
  absent : ∀ id idx, (id ∈ interest → ∀ r ∈ rs, r.row? id idx = none) →
    entryAt s.ledger id idx = none
  /-- The greatest start time of a fetch that succeeded, `-inf` if none did. -/
  lastFetchAt : (∀ r ∈ rs, r.statuses.isSome → (r.fetchAt : WithBot ℤ) ≤ s.lastFetchAt) ∧
    (s.lastFetchAt = ⊥ ∨ ∃ r ∈ rs, r.statuses.isSome ∧ s.lastFetchAt = r.fetchAt)
  /-- The outcome with the greatest start time. -/
  health : ∀ r ∈ rs, (∀ r' ∈ rs, r'.fetchAt ≤ r.fetchAt) → s.health = r.verdict

theorem MergedBy.congr {interest : Finset ℕ} {rs' : List Response} (h : MergedBy interest rs s)
    (hmem : ∀ r, r ∈ rs ↔ r ∈ rs') : MergedBy interest rs' s := by
  obtain ⟨hrow, habsent, hlast, hhealth⟩ := h
  simp only [hmem] at hrow habsent hlast hhealth
  exact ⟨hrow, habsent, hlast, hhealth⟩

/-- The stamps of the writes to one register are start times of distinct responses. -/
theorem nodup_writes (hnd : (rs.map (·.fetchAt)).Nodup) (id : ℕ) (idx : Option ℕ) :
    ((rs.filterMap (Response.write? id idx)).map Prod.fst).Nodup := by
  refine nodup_map_filterMap (fun r w hw => ?_) hnd
  obtain ⟨st, -, rfl⟩ := Option.map_eq_some_iff.mp hw
  rfl

theorem receiveAll_row (hs : s.Blank) (hnd : (rs.map (·.fetchAt)).Nodup) (h : Unpruned o s rs)
    {id : ℕ} {idx : Option ℕ} (hid : id ∈ s.interest) {r : Response} (hr : r ∈ rs)
    {st : JobStatus} (hst : r.row? id idx = some st)
    (hmax : ∀ r' ∈ rs, (r'.row? id idx).isSome → r'.fetchAt ≤ r.fetchAt) :
    ∃ e, entryAt (s.receiveAll o rs).ledger id idx = some e ∧
      withoutRuntime e.status = withoutRuntime st := by
  obtain ⟨-, hentry⟩ := receiveAll_stamped hs h id idx
  have hnewest : newest (rs.filterMap (Response.write? id idx))
      = some (r.fetchAt, withoutRuntime st) := by
    rw [newest_eq_some_iff (nodup_writes hnd id idx)]
    constructor
    · exact List.mem_filterMap.mpr ⟨r, hr, by rw [Response.write?, hst, Option.map_some]⟩
    · intro w hw
      obtain ⟨r', hr', hw⟩ := List.mem_filterMap.mp hw
      obtain ⟨st', hst', rfl⟩ := Option.map_eq_some_iff.mp hw
      exact hmax r' hr' (by rw [hst', Option.isSome_some])
  rw [if_pos hid, hnewest] at hentry
  obtain ⟨e, he, hstamped⟩ := Option.map_eq_some_iff.mp hentry
  exact ⟨e, he, congrArg Prod.snd hstamped⟩

theorem receiveAll_absent (hs : s.Blank) (h : Unpruned o s rs) {id : ℕ} {idx : Option ℕ}
    (hnone : id ∈ s.interest → ∀ r ∈ rs, r.row? id idx = none) :
    entryAt (s.receiveAll o rs).ledger id idx = none := by
  obtain ⟨-, hentry⟩ := receiveAll_stamped hs h id idx
  have hnil : (if id ∈ s.interest then newest (rs.filterMap (Response.write? id idx)) else none)
      = none := by
    split
    case isTrue hid =>
      rw [newest_eq_none, List.filterMap_eq_nil_iff]
      intro r hr
      rw [Response.write?, hnone hid r hr, Option.map_none]
    case isFalse => rfl
  rw [hnil] at hentry
  exact Option.map_eq_none_iff.mp hentry

theorem receiveAll_lastFetchAt (o : Options) (hs : s.Blank) (rs : List Response) :
    (∀ r ∈ rs, r.statuses.isSome → (r.fetchAt : WithBot ℤ) ≤ (s.receiveAll o rs).lastFetchAt) ∧
      ((s.receiveAll o rs).lastFetchAt = ⊥ ∨
        ∃ r ∈ rs, r.statuses.isSome ∧ (s.receiveAll o rs).lastFetchAt = r.fetchAt) := by
  induction rs using List.reverseRecOn with
  | nil => exact ⟨fun r hr => absurd hr List.not_mem_nil, .inl hs.lastFetchAt⟩
  | append_singleton rs r ih =>
    obtain ⟨hle, heq⟩ := ih
    rw [receiveAll_concat, receive_lastFetchAt]
    generalize (s.receiveAll o rs).lastFetchAt = last at hle heq
    have hold : ∀ x : WithBot ℤ, (∃ r ∈ rs, r.statuses.isSome ∧ x = r.fetchAt) →
        ∃ r' ∈ rs ++ [r], r'.statuses.isSome ∧ x = r'.fetchAt := by
      rintro x ⟨r', hr', hx⟩
      exact ⟨r', List.mem_append_left _ hr', hx⟩
    split
    case isTrue hok =>
      constructor
      · intro r' hr' hok'
        rcases List.mem_append.mp hr' with hr' | hr'
        · exact (hle r' hr' hok').trans (le_max_left _ _)
        · obtain rfl := List.mem_singleton.mp hr'
          exact le_max_right _ _
      · right
        rcases le_total last (r.fetchAt : WithBot ℤ) with hlt | hge
        · exact ⟨r, by simp, hok, max_eq_right hlt⟩
        · rw [max_eq_left hge]
          refine hold last (heq.resolve_left ?_)
          rintro rfl
          exact absurd hge (by simp)
    case isFalse hfail =>
      constructor
      · intro r' hr' hok'
        rcases List.mem_append.mp hr' with hr' | hr'
        · exact hle r' hr' hok'
        · obtain rfl := List.mem_singleton.mp hr'
          exact absurd hok' hfail
      · exact heq.imp_right (hold last)

/-- The health and its clock are those of one outcome, none of which started later. -/
theorem receiveAll_health (o : Options) (hs : s.Blank) (rs : List Response) :
    (rs = [] ∧ (s.receiveAll o rs).healthAt = ⊥) ∨
      ∃ r ∈ rs, (s.receiveAll o rs).healthAt = r.fetchAt ∧
        (s.receiveAll o rs).health = r.verdict ∧ ∀ r' ∈ rs, r'.fetchAt ≤ r.fetchAt := by
  induction rs using List.reverseRecOn with
  | nil => exact .inl ⟨rfl, hs.healthAt⟩
  | append_singleton rs r ih =>
    right
    obtain ⟨hclock, hhealth⟩ := receive_health o (s.receiveAll o rs) r
    rw [receiveAll_concat, hclock, hhealth]
    rcases ih with ⟨rfl, hbot⟩ | ⟨p, hp, hpclock, hphealth, hpmax⟩
    · rw [hbot, if_neg (by simp), if_neg (by simp)]
      exact ⟨r, by simp, rfl, rfl, by simp⟩
    · rw [hpclock]
      by_cases hle : r.fetchAt ≤ p.fetchAt
      · have hle' : (r.fetchAt : WithBot ℤ) ≤ p.fetchAt := WithBot.coe_le_coe.mpr hle
        rw [if_pos hle', if_pos hle']
        refine ⟨p, List.mem_append_left _ hp, rfl, hphealth, fun r' hr' => ?_⟩
        rcases List.mem_append.mp hr' with hr' | hr'
        · exact hpmax r' hr'
        · obtain rfl := List.mem_singleton.mp hr'
          exact hle
      · have hle' : ¬(r.fetchAt : WithBot ℤ) ≤ p.fetchAt := fun h => hle (WithBot.coe_le_coe.mp h)
        rw [if_neg hle', if_neg hle']
        refine ⟨r, by simp, rfl, rfl, fun r' hr' => ?_⟩
        rcases List.mem_append.mp hr' with hr' | hr'
        · exact (hpmax r' hr').trans (not_le.mp hle).le
        · obtain rfl := List.mem_singleton.mp hr'
          exact le_rfl

/-- **Merging does not depend on the order of arrival.** -/
theorem merge_order {order : List Response} (hs : s.Blank) (hnd : (rs.map (·.fetchAt)).Nodup)
    (horder : order.Perm rs) (h : Unpruned o s order) :
    MergedBy s.interest rs (s.receiveAll o order) := by
  have hnd' : (order.map (·.fetchAt)).Nodup := (horder.map _).nodup_iff.mpr hnd
  refine MergedBy.congr ⟨?_, ?_, receiveAll_lastFetchAt o hs order, ?_⟩ fun r => horder.mem_iff
  · intro id hid idx r hr st hst hmax
    exact receiveAll_row hs hnd' h hid hr hst hmax
  · intro id idx hnone
    exact receiveAll_absent hs h hnone
  · intro r hr hmax
    rcases receiveAll_health o hs order with ⟨rfl, -⟩ | ⟨p, hp, -, hhealth, hpmax⟩
    · cases hr
    · have hstart : p.fetchAt = r.fetchAt := le_antisymm (hmax p hp) (hpmax r hr)
      rw [hhealth, List.inj_on_of_nodup_map hnd' hp hr hstart]

/-- A fetch that was taken over brings its row last. -/
def lateRow : List Response :=
  [⟨1, 20, 5, some [⟨7, none, .done, some 0, none, none, none, none, none⟩], false⟩,
    ⟨0, 10, 2, some [⟨7, none, .run, none, none, some 0, none, none, none⟩,
      ⟨8, some 1, .pend, none, none, none, none, none, none⟩], false⟩,
    ⟨2, 30, 6, none, false⟩]

theorem merge_order_lateRow :
    let o : Options := { failover := false, refreshMinS := none, waitTimeoutS := 0, retention := 0 }
    let s : Source := { o.source with interest := {7, 8} }
    (((s.receiveAll o lateRow).statuses [7, 8]).map fun st => (st.jobId, st.state))
        = [(7, .done), (8, .pend)] ∧ MergedBy {7, 8} lateRow.reverse (s.receiveAll o lateRow) := by
  intro o s
  have hoff : o.kept ≤ 0 := by decide
  have hblank : s.Blank := ⟨rfl, rfl, rfl⟩
  exact ⟨by decide +kernel, merge_order hblank (by decide) (List.reverse_perm _).symm
    (unpruned_of_off hoff lateRow)⟩

end ReceiveAll

end Source

end Lsfmgr.Status
