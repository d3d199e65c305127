import Mathlib
import Lsfmgr.Store.Memory

/-!
# Monitor/Merge — from an observation to the write it causes

A poll compares each record of its snapshot with what the source said of it.  `lookup` finds the
observation (folding the elements of an array job into one), `mergeFields` decides whether anything
changed, and the write itself is a compare-and-set against the snapshot (`unchanged`), so that what
happened to the record since then is never overwritten.
-/

namespace Lsfmgr

open Machinery

/-- `_keep`: an unknown observation keeps the stored value. -/
def keep {α : Type*} (new old : Option α) : Option α := new.or old

/-- `merge_fields`: the fields to write, or `none` when nothing changed. -/
def mergeFields (rec : JobRecord) (st : JobStatus) (runtimeUpdates collectClusters : Bool) :
    Option (List Field) :=
  let runTimeS := keep st.runTimeS rec.runTimeS
  let startTime := keep st.startTime rec.startTime
  let finishTime := keep st.finishTime rec.finishTime
  let source := keep st.sourceCluster rec.sourceCluster
  let forward := keep st.forwardCluster rec.forwardCluster
  let changed := st.state ≠ rec.state || st.exitCode ≠ rec.exitCode
    || startTime ≠ rec.startTime || finishTime ≠ rec.finishTime
    || (collectClusters && (source ≠ rec.sourceCluster || forward ≠ rec.forwardCluster))
    || (runtimeUpdates && runTimeS ≠ rec.runTimeS)
  if changed then
    some ([.exitCode st.exitCode, .runTimeS runTimeS, .startTime startTime,
        .finishTime finishTime]
      ++ (if collectClusters then [.sourceCluster source, .forwardCluster forward] else [])
      ++ [.jobId (rec.jobId.or (some st.jobId))])
  else none

/-- The guard of a poll's write: same execution, same job id, same state as in the snapshot. -/
def unchanged (rec cur : JobRecord) : Bool :=
  cur.sameExecution rec && cur.jobId = rec.jobId && cur.state = rec.state

/-- The guard of `detect_lost`: still being submitted, still without a job id. -/
def stillLost (rec cur : JobRecord) : Bool :=
  cur.sameExecution rec && cur.jobId = none && cur.state = rec.state

/-- The first value of the list that is known. -/
def firstKnown {α : Type*} (l : List (Option α)) : Option α := l.findSome? id

/-- A string that Python takes for true. -/
def truthy (s : Option String) : Option String := s.filter (· ≠ "")

/-- `_aggregate_elements`: one observation for an array job whose elements are `elems`. -/
def aggregateElements (jobId : ℕ) (elems : List JobStatus) : JobStatus :=
  let on := elems.filter fun e => e.state.isOnLsf
  let bad := elems.filter fun e => e.state = .exit
  let head : JobState × Option ℤ :=
    match on with
    | first :: _ => (((on.find? fun e => e.state = .run).getD first).state, none)
    | [] =>
      if bad.isEmpty then (.done, none)
      else (.exit, firstKnown (bad.map (·.exitCode)))
  { jobId := jobId
    arrayIndex := none
    state := head.1
    exitCode := head.2
    runTimeS := (elems.filterMap (·.runTimeS)).max?
    startTime := (elems.filterMap (·.startTime)).min?
    finishTime := if on.isEmpty then (elems.filterMap (·.finishTime)).max? else none
    sourceCluster := firstKnown (elems.map fun e => truthy e.sourceCluster)
    forwardCluster := firstKnown (elems.map fun e => truthy e.forwardCluster) }

/-- The rows of one answer, the last row of each `(job_id, array_index)` kept at the place of the
first. -/
def rowTable (sts : List JobStatus) : Dict (ℕ × Option ℕ) JobStatus :=
  sts.foldl (fun d st => d.set (st.jobId, st.arrayIndex) st) ∅

/-- `lookup`: the observation of a record — its exact row, or its elements folded into one. -/
def lookup (rows : Dict (ℕ × Option ℕ) JobStatus) (rec : JobRecord) : Option JobStatus :=
  match rec.jobId with
  | none => none
  | some id =>
    match rows.get? (id, rec.arrayIndex) with
    | some st => some st
    | none =>
      if rec.arrayIndex = none then
        match rows.values.filter fun st => st.jobId = id with
        | [] => none
        | elems => some (aggregateElements id elems)
      else none

/-- A row is about the record: it is its own row, or a row of its elements when the record stands
for a whole array. -/
def JobStatus.Matches (st : JobStatus) (rec : JobRecord) : Prop :=
  rec.jobId = some st.jobId ∧ (st.arrayIndex = rec.arrayIndex ∨ rec.arrayIndex = none)

theorem get?_rowTable (sts : List JobStatus) (q : ℕ × Option ℕ) :
    (rowTable sts).get? q = sts.reverse.find? fun st => (st.jobId, st.arrayIndex) = q := by
  have h := Dict.get?_foldl_set (fun st : JobStatus => (st.jobId, st.arrayIndex)) id sts ∅ q
  simpa [rowTable] using h

/-- The rows of the table are rows of the answer. -/
theorem mem_of_mem_values_rowTable {sts : List JobStatus} {st : JobStatus}
    (h : st ∈ (rowTable sts).values) : st ∈ sts := by
  obtain ⟨q, hq⟩ := Dict.mem_values.mp h
  rw [get?_rowTable] at hq
  exact List.mem_reverse.mp (List.mem_of_find?_eq_some hq)

/-- The row the table keeps for an id and an index. -/
theorem ids_of_get?_rowTable {sts : List JobStatus} {id : ℕ} {a : Option ℕ} {st : JobStatus}
    (h : (rowTable sts).get? (id, a) = some st) : st ∈ sts ∧ st.jobId = id ∧ st.arrayIndex = a := by
  rw [get?_rowTable] at h
  have hq := List.find?_some (p := fun st : JobStatus => (st.jobId, st.arrayIndex) = (id, a)) h
  obtain ⟨hj, ha⟩ := Prod.mk.inj (of_decide_eq_true hq)
  exact ⟨List.mem_reverse.mp (List.mem_of_find?_eq_some h), hj, ha⟩

/-- Every id and index of the answer has a row in the table. -/
theorem exists_get?_rowTable {sts : List JobStatus} {st : JobStatus} (h : st ∈ sts) :
    ∃ st', (rowTable sts).get? (st.jobId, st.arrayIndex) = some st' := by
  rcases hq : (rowTable sts).get? (st.jobId, st.arrayIndex) with _ | st'
  · rw [get?_rowTable, List.find?_eq_none] at hq
    exact absurd (decide_eq_true rfl) (hq st (List.mem_reverse.mpr h))
  · exact ⟨st', rfl⟩

/-- **A record is missing exactly when no row of the answer is about it.** -/
theorem lookup_eq_none {sts : List JobStatus} {rec : JobRecord} :
    lookup (rowTable sts) rec = none ↔ ∀ st ∈ sts, ¬st.Matches rec := by
  rcases hid : rec.jobId with _ | id
  · simp [lookup, JobStatus.Matches, hid]
  · simp only [lookup, hid]
    constructor
    · rintro h st hst ⟨hj, hidx⟩
      obtain rfl : id = st.jobId := Option.some.inj (hid.symm.trans hj)
      obtain ⟨st', hst'⟩ := exists_get?_rowTable hst
      split at h
      case h_1 => cases h
      case h_2 hrow =>
        rcases hidx with hidx | hidx
        · rw [hidx, hrow] at hst'
          cases hst'
        · have hmem : st' ∈ (rowTable sts).values.filter fun x => x.jobId = st.jobId :=
            List.mem_filter.mpr ⟨Dict.mem_values.mpr ⟨_, hst'⟩,
              decide_eq_true (ids_of_get?_rowTable hst').2.1⟩
          rw [if_pos hidx] at h
          split at h
          case h_1 hnil => exact List.not_mem_nil (hnil ▸ hmem)
          case h_2 => cases h
    · intro h
      split
      case h_1 row hrow =>
        obtain ⟨hmem, hj, ha⟩ := ids_of_get?_rowTable hrow
        exact absurd ⟨by rw [hid, hj], .inl ha⟩ (h row hmem)
      case h_2 hrow =>
        split
        case isFalse => rfl
        case isTrue ha =>
          have hnil : (rowTable sts).values.filter (fun x => x.jobId = id) = [] := by
            rw [List.filter_eq_nil_iff]
            intro st hst hj
            exact h st (mem_of_mem_values_rowTable hst)
              ⟨by rw [hid, of_decide_eq_true hj], .inr ha⟩
          rw [hnil]

/-- Elements fold into a state a source can report. -/
theorem isReported_aggregateElements (id : ℕ) (elems : List JobStatus) :
    (aggregateElements id elems).state.isReported = true := by
  simp only [aggregateElements]
  split
  case h_1 first rest hon =>
    have hmem : (((elems.filter fun e => e.state.isOnLsf).find? fun e => e.state = .run).getD
        first) ∈ elems.filter fun e => e.state.isOnLsf := by
      rcases hf : (elems.filter fun e => e.state.isOnLsf).find? fun e => e.state = .run with _ | e
      · rw [hf, Option.getD_none, hon]
        exact List.mem_cons_self
      · rw [hf, Option.getD_some]
        exact List.mem_of_find?_eq_some hf
    exact JobState.isReported_of_isOnLsf (List.mem_filter.mp hmem).2
  case h_2 => split <;> rfl

/-- An observation has a state that was reported, and belongs to a record with a job id. -/
theorem reported_of_lookup {sts : List JobStatus} {rec : JobRecord} {st : JobStatus}
    (hrep : ∀ row ∈ sts, row.state.isReported = true)
    (h : lookup (rowTable sts) rec = some st) :
    st.state.isReported = true ∧ rec.jobId.isSome = true := by
  rcases hid : rec.jobId with _ | id
  · simp [lookup, hid] at h
  · refine ⟨?_, rfl⟩
    simp only [lookup, hid] at h
    split at h
    case h_1 row hrow =>
      obtain rfl := Option.some.inj h
      exact hrep _ (ids_of_get?_rowTable hrow).1
    case h_2 =>
      split at h
      case isFalse => cases h
      case isTrue =>
        split at h
        · cases h
        · obtain rfl := Option.some.inj h
          exact isReported_aggregateElements id _

/-! ## What the writes of a poll leave alone -/

theorem unchanged_iff {rec cur : JobRecord} :
    unchanged rec cur = true ↔ cur.sameExecution rec = true ∧ cur.jobId = rec.jobId ∧
      cur.state = rec.state := by
  simp [unchanged, and_assoc]

theorem mergeFields_plain {rec : JobRecord} {st : JobStatus} {ru cc : Bool} {fields : List Field}
    (h : mergeFields rec st ru cc = some fields) : ∀ f ∈ fields, f.Plain := by
  simp only [mergeFields] at h
  split at h
  case isFalse => cases h
  case isTrue =>
    obtain rfl := Option.some.inj h
    cases cc <;> simp [Field.Plain, Field.badName?, Field.keyName?]

/-- **A merge keeps the identity of the record**: its generation, and the job id it has. -/
theorem mergeFields_rewrite {rec : JobRecord} (cur : JobRecord) {st : JobStatus} {ru cc : Bool}
    {fields : List Field} (h : mergeFields rec st ru cc = some fields) (now : Time)
    (state : JobState) (rev : ℕ) :
    (cur.rewrite now state rev fields).generation = cur.generation ∧
      (cur.rewrite now state rev fields).jobId = rec.jobId.or (some st.jobId) ∧
      (cur.rewrite now state rev fields).state = state := by
  simp only [mergeFields] at h
  split at h
  case isFalse => cases h
  case isTrue =>
    obtain rfl := Option.some.inj h
    cases cc <;> simp [JobRecord.rewrite, Field.put]

end Lsfmgr
