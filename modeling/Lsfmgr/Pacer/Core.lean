import Mathlib
import Lsfmgr.Machinery.Dict
import Lsfmgr.Machinery.Lane
import Lsfmgr.Store.States
import Lsfmgr.Store.Memory

/-!
# Pacer/Core — `StatePacer`, the transitions that wait to be displayed

`jobs_updated` goes through the pacer, so that a state stays on display for the dwell before the
next one comes.  The two tables are read and written one key at a time: what they hold for a key is
a `Lane`, and each operation acts on the lanes one by one.
-/

namespace Lsfmgr.Pacer

open Machinery

/-- `_DUE_TOLERANCE_S`. -/
def dueToleranceS : ℚ := 5 / 1000

/-- `_PRUNE_AT`. -/
def pruneAt : ℕ := 4096

/-- `(jobset_id, job_key)`. -/
abbrev Key := String × String

/-- The pacer: the dwell, what is displayed since when, and what is not displayed yet. -/
structure StatePacer where
  dwell : ℚ
  shown : Dict Key (JobState × ℚ) := ∅
  queue : Dict Key (List JobRecord) := ∅

/-- `_enqueue`. -/
def enqueue (queue : List JobRecord) (record : JobRecord) : List JobRecord :=
  match queue.getLast? with
  | some last =>
    if last.state = record.state then queue.dropLast ++ [record] else queue ++ [record]
  | none => queue ++ [record]

namespace StatePacer

/-- One pass of the loop of `push`; `due` are the records to emit. -/
def pushRecord (p : StatePacer) (now : ℚ) (jobsetId : String) (due : List JobRecord)
    (record : JobRecord) : StatePacer × List JobRecord :=
  let key := (jobsetId, record.jobKey)
  match p.queue.get? key with
  | some q => ({ p with queue := p.queue.set key (enqueue q record) }, due)
  | none =>
    match p.shown.get? key with
    | some (state, since) =>
      if record.state = state then (p, due ++ [record])
      else if p.dwell - dueToleranceS ≤ now - since then
        ({ p with shown := p.shown.set key (record.state, now) }, due ++ [record])
      else ({ p with queue := p.queue.set key [record] }, due)
    | none => ({ p with shown := p.shown.set key (record.state, now) }, due ++ [record])

/-- The loop of `push`, from the records that are due already. -/
def pushRecords (p : StatePacer) (now : ℚ) (jobsetId : String) (due : List JobRecord) :
    List JobRecord → StatePacer × List JobRecord
  | [] => (p, due)
  | record :: records =>
    let (p, due) := p.pushRecord now jobsetId due record
    p.pushRecords now jobsetId due records

/-- The keys `forget` drops. -/
def dropped (p : StatePacer) (jobsetId : String) : Option (List String) → List Key
  | some jobKeys => jobKeys.map fun k => (jobsetId, k)
  | none => p.queue.keys.filter (fun k => k.1 = jobsetId) ++
      p.shown.keys.filter fun k => k.1 = jobsetId

/-- `forget`. -/
def forget (p : StatePacer) (jobsetId : String) (jobKeys : Option (List String)) : StatePacer :=
  { p with
    queue := (p.dropped jobsetId jobKeys).foldl Dict.erase p.queue
    shown := (p.dropped jobsetId jobKeys).foldl Dict.erase p.shown }

/-- The keys `_drain` goes through, by jobset. -/
def batches (p : StatePacer) : Dict String (List Key) :=
  p.queue.keys.foldl (fun b key => b.set key.1 ((b.get? key.1).getD [] ++ [key])) ∅

/-- Whether what is displayed for the key has not stayed for the dwell. -/
def early (p : StatePacer) (now : ℚ) (key : Key) : Bool :=
  match p.shown.get? key with
  | some (_, since) => decide (now - since < p.dwell - dueToleranceS)
  | none => false

/-- One pass of the inner loop of `_drain`; `records` are those to emit. -/
def drainKey (p : StatePacer) (flush : Bool) (now : ℚ) (records : List JobRecord) (key : Key) :
    StatePacer × List JobRecord :=
  match p.queue.get? key with
  | some (head :: rest) =>
    if !flush && p.early now key then (p, records)
    else
      let record := if flush then (head :: rest).getLast (List.cons_ne_nil head rest) else head
      let queue := if flush || rest.isEmpty then p.queue.erase key else p.queue.set key rest
      ({ p with queue := queue, shown := p.shown.set key (record.state, now) }, records ++ [record])
  | _ => (p, records)

/-- The inner loop of `_drain`, for the keys of one jobset. -/
def drainKeys (p : StatePacer) (flush : Bool) (now : ℚ) (records : List JobRecord) :
    List Key → StatePacer × List JobRecord
  | [] => (p, records)
  | key :: keys =>
    let (p, records) := p.drainKey flush now records key
    p.drainKeys flush now records keys

/-- `_prune`, which does nothing up to `limit` entries. -/
def prune (limit : ℕ) (p : StatePacer) (now : ℚ) : StatePacer :=
  if p.shown.keys.length ≤ limit then p
  else { p with
    shown := p.shown.filter fun key entry =>
      !(decide (p.dwell < now - entry.2) && decide (key ∉ p.queue.keys)) }

/-! ## The lanes of a pacer -/

/-- What the two tables hold for a key. -/
def lane (p : StatePacer) (key : Key) : Lane JobState JobRecord ℚ where
  shown := p.shown.get? key
  queue := p.queue.get? key

/-- `dwell` less the tolerance. -/
def wait (p : StatePacer) : ℚ := p.dwell - dueToleranceS

end StatePacer

theorem enqueue_eq (queue : List JobRecord) (record : JobRecord) :
    enqueue queue record = Lane.enqueue JobRecord.state queue record := by
  rw [enqueue, Lane.enqueue]
  obtain - | last := queue.getLast? <;> simp

namespace StatePacer

variable (p : StatePacer) (now : ℚ)

theorem lane_queue_set (key k : Key) (q : List JobRecord) :
    ({ p with queue := p.queue.set key q } : StatePacer).lane k =
      if k = key then { p.lane key with queue := some q } else p.lane k := by
  by_cases hk : k = key <;> simp [lane, Dict.get?_set, hk]

theorem lane_shown_set (key k : Key) (e : JobState × ℚ) :
    ({ p with shown := p.shown.set key e } : StatePacer).lane k =
      if k = key then { p.lane key with shown := some e } else p.lane k := by
  by_cases hk : k = key <;> simp [lane, Dict.get?_set, hk]

/-- What a pass of the loop of `push` does: the record is an offer to the lane of its key. -/
structure Offered (jobsetId : String) (record : JobRecord) (due : List JobRecord)
    (after : StatePacer × List JobRecord) : Prop where
  lane_self : after.1.lane (jobsetId, record.jobKey) =
    (Lane.offer JobRecord.state p.wait now (p.lane (jobsetId, record.jobKey)) record).1
  lane_other : ∀ k, k ≠ (jobsetId, record.jobKey) → after.1.lane k = p.lane k
  due : after.2 = due ++
    (Lane.offer JobRecord.state p.wait now (p.lane (jobsetId, record.jobKey)) record).2.toList
  dwell : after.1.dwell = p.dwell
  queue : after.1.queue =
    if (Lane.offer JobRecord.state p.wait now (p.lane (jobsetId, record.jobKey)) record).2.isSome
      then p.queue
    else p.queue.set (jobsetId, record.jobKey)
      (Lane.offer JobRecord.state p.wait now (p.lane (jobsetId, record.jobKey)) record).1.waiting

theorem pushRecord_offered (jobsetId : String) (due : List JobRecord) (record : JobRecord) :
    p.Offered now jobsetId record due (p.pushRecord now jobsetId due record) := by
  have hq : (p.lane (jobsetId, record.jobKey)).queue = p.queue.get? (jobsetId, record.jobKey) := rfl
  have hs : (p.lane (jobsetId, record.jobKey)).shown = p.shown.get? (jobsetId, record.jobKey) := rfl
  rcases hqueue : p.queue.get? (jobsetId, record.jobKey) with - | q
  · rcases hshown : p.shown.get? (jobsetId, record.jobKey) with - | ⟨state, since⟩
    · constructor <;>
        simp +contextual [pushRecord, Lane.offer, hq, hs, hqueue, hshown, lane_shown_set]
    · by_cases hstate : record.state = state
      · constructor <;> simp +contextual [pushRecord, Lane.offer, hq, hs, hqueue, hshown, hstate]
      · by_cases hdue : p.dwell - dueToleranceS ≤ now - since
        · constructor <;>
            simp +contextual [pushRecord, Lane.offer, hq, hs, hqueue, hshown, hstate, hdue,
            wait, lane_shown_set]
        · constructor <;>
            simp +contextual [pushRecord, Lane.offer, hq, hs, hqueue, hshown, hstate, hdue,
            wait, lane_queue_set, Lane.waiting]
  · constructor <;>
      simp +contextual [pushRecord, Lane.offer, hq, hqueue, lane_queue_set, enqueue_eq,
      Lane.waiting]

/-- What a pass of the inner loop of `_drain` does: the lane of the key has its turn. -/
structure Turned (flush : Bool) (key : Key) (records : List JobRecord)
    (after : StatePacer × List JobRecord) : Prop where
  lane_self : after.1.lane key = (Lane.turn JobRecord.state p.wait now flush (p.lane key)).1
  lane_other : ∀ k, k ≠ key → after.1.lane k = p.lane k
  records : after.2 = records ++
    (Lane.turn JobRecord.state p.wait now flush (p.lane key)).2.toList
  dwell : after.1.dwell = p.dwell
  queue : after.1.queue =
    if (Lane.turn JobRecord.state p.wait now flush (p.lane key)).2.isSome then
      (Lane.turn JobRecord.state p.wait now flush (p.lane key)).1.queue.elim
        (p.queue.erase key) (p.queue.set key)
    else p.queue

theorem drainKey_turned (flush : Bool) (records : List JobRecord) (key : Key) :
    p.Turned now flush key records (p.drainKey flush now records key) := by
  have hq : (p.lane key).queue = p.queue.get? key := rfl
  have hs : (p.lane key).shown = p.shown.get? key := rfl
  rcases hqueue : p.queue.get? key with - | - | ⟨head, rest⟩
  · constructor <;> simp [drainKey, Lane.turn, hq, hqueue]
  · constructor <;> simp [drainKey, Lane.turn, hq, hqueue]
  · have hy : (p.lane key).young p.wait now = p.early now key := by
      rw [Lane.young, hs, early]
      cases p.shown.get? key <;> rfl
    obtain ⟨next, hnext⟩ : ∃ next, next =
        if flush then (head :: rest).getLast (List.cons_ne_nil head rest) else head := ⟨_, rfl⟩
    have hturn : Lane.turn JobRecord.state p.wait now flush (p.lane key) =
        if (!flush && p.early now key) = true then (p.lane key, none)
        else ({ shown := some (next.state, now)
                queue := if flush || rest.isEmpty then none else some rest }, some next) := by
      simp only [Lane.turn, hq, hqueue, hy, hnext]
    rw [drainKey, hqueue]
    simp only [← hnext]
    by_cases hearly : (!flush && p.early now key) = true
    · rw [if_pos hearly]
      rw [if_pos hearly] at hturn
      exact ⟨by rw [hturn], fun _ _ => rfl, by rw [hturn]; simp, rfl, by rw [hturn]; rfl⟩
    · rw [if_neg hearly]
      rw [if_neg hearly] at hturn
      refine ⟨?_, fun k hk => ?_, by rw [hturn]; simp, rfl, ?_⟩
      · rw [hturn]
        by_cases hlast : (flush || rest.isEmpty) = true <;> simp [lane, hlast]
      · by_cases hlast : (flush || rest.isEmpty) = true <;>
          simp [lane, hlast, Dict.get?_set, Dict.get?_erase, hk]
      · rw [hturn]
        by_cases hlast : (flush || rest.isEmpty) = true <;> simp [hlast]

/-- `forget` empties the lanes of the keys it is about, and leaves the others. -/
theorem lane_forget (jobsetId : String) (jobKeys : Option (List String)) (key : Key) :
    (p.forget jobsetId jobKeys).lane key =
      if key.1 = jobsetId ∧ ∀ ks, jobKeys = some ks → key.2 ∈ ks then {} else p.lane key := by
  have hlane : (p.forget jobsetId jobKeys).lane key =
      if key ∈ p.dropped jobsetId jobKeys then {} else p.lane key := by
    simp only [forget, lane, Dict.get?_foldl_erase]
    split <;> rfl
  rw [hlane]
  obtain ⟨js, k⟩ := key
  obtain - | ks := jobKeys
  · by_cases hjs : js = jobsetId
    · subst hjs
      have hall : ∀ ks, (none : Option (List String)) = some ks → k ∈ ks := by simp
      rw [if_pos (⟨rfl, hall⟩ : js = js ∧ _)]
      by_cases hmem : (js, k) ∈ p.dropped js none
      · rw [if_pos hmem]
      · rw [if_neg hmem]
        simp only [dropped, List.mem_append, List.mem_filter, decide_true, and_true, not_or,
          ← Dict.get?_eq_none] at hmem
        simp only [lane, hmem]
    · simp [dropped, hjs]
  · simp [dropped, eq_comm, and_comm]

/-- The keys of the queue that `forget` drops do not depend on what is displayed. -/
theorem mem_dropped {key : Key} (hk : key ∈ p.queue.keys) (jobsetId : String)
    (jobKeys : Option (List String)) : key ∈ p.dropped jobsetId jobKeys ↔
      key.1 = jobsetId ∧ ∀ ks, jobKeys = some ks → key.2 ∈ ks := by
  obtain ⟨js, k⟩ := key
  obtain - | ks := jobKeys
  · simp [dropped, hk]
  · simp [dropped, eq_comm, and_comm]

theorem entries_queue_forget (jobsetId : String) (jobKeys : Option (List String)) :
    (p.forget jobsetId jobKeys).queue.entries = p.queue.entries.filter fun e =>
      ¬ (e.1.1 = jobsetId ∧ ∀ ks, jobKeys = some ks → e.1.2 ∈ ks) := by
  have hfold : ∀ (keys : List Key) (d : Dict Key (List JobRecord)),
      (keys.foldl Dict.erase d).entries = d.entries.filter fun e => e.1 ∉ keys := by
    intro keys
    induction keys with
    | nil => simp
    | cons key keys ih =>
      intro d
      rw [List.foldl_cons, ih, Dict.erase, List.filter_filter]
      refine List.filter_congr fun e _ => ?_
      simp [Bool.and_comm]
  rw [forget, hfold]
  refine List.filter_congr fun e he => ?_
  exact decide_eq_decide.mpr (not_congr (p.mem_dropped (List.mem_map_of_mem he) jobsetId jobKeys))

theorem lane_prune (limit : ℕ) (key : Key) :
    (p.prune limit now).lane key = p.lane key ∨
      (p.prune limit now).lane key = Lane.hide now p.dwell (p.lane key) := by
  rw [prune]
  split
  case isTrue => exact .inl rfl
  case isFalse =>
    right
    simp only [lane, Dict.get?_filter, Lane.hide]
    rcases hs : p.shown.get? key with - | ⟨s, t⟩
    · rfl
    · rcases hq : p.queue.get? key with - | q
      · have hk : key ∉ p.queue.keys := Dict.get?_eq_none.mp hq
        by_cases ht : p.dwell < now - t <;> simp only [Option.filter_some, ht, hk] <;> rfl
      · have hk : key ∈ p.queue.keys := Dict.mem_keys.mpr ⟨q, hq⟩
        simp [hk]

/-- The batches hold the keys that are queued, by jobset and in the order of the queue. -/
theorem get?_batches (jobsetId : String) :
    (p.batches.get? jobsetId).getD [] = p.queue.keys.filter fun key => key.1 = jobsetId := by
  have hfold : ∀ (keys : List Key) (b : Dict String (List Key)),
      ((keys.foldl (fun b key => b.set key.1 ((b.get? key.1).getD [] ++ [key])) b).get?
        jobsetId).getD []
        = (b.get? jobsetId).getD [] ++ keys.filter fun key => key.1 = jobsetId := by
    intro keys
    induction keys with
    | nil => simp
    | cons key keys ih =>
      intro b
      rw [List.foldl_cons, ih, Dict.get?_set]
      by_cases hk : jobsetId = key.1
      · simp [hk]
      · simp [hk, Ne.symm hk]
  rw [batches, hfold]
  simp

theorem fst_of_mem_batches {jobsetId : String} {keys : List Key}
    (h : (jobsetId, keys) ∈ p.batches.entries) {key : Key} (hk : key ∈ keys) :
    key.1 = jobsetId := by
  have hb := p.get?_batches jobsetId
  rw [Dict.get?_eq_some.mpr h, Option.getD_some] at hb
  rw [hb] at hk
  exact of_decide_eq_true (List.mem_filter.mp hk).2

theorem mem_batches {key : Key} (h : (p.lane key).queue ≠ none) :
    ∃ keys, (key.1, keys) ∈ p.batches.entries ∧ key ∈ keys := by
  have hk : key ∈ p.queue.keys := by
    by_contra hk
    exact h (Dict.get?_eq_none.mpr hk)
  have hb := p.get?_batches key.1
  rcases hget : p.batches.get? key.1 with - | keys
  · rw [hget, Option.getD_none] at hb
    have hmem : key ∈ p.queue.keys.filter fun k => k.1 = key.1 := List.mem_filter.mpr ⟨hk, by simp⟩
    rw [← hb] at hmem
    cases hmem
  · rw [hget, Option.getD_some] at hb
    exact ⟨keys, Dict.get?_eq_some.mp hget, hb ▸ List.mem_filter.mpr ⟨hk, by simp⟩⟩

/-! ## The loops -/

theorem pushRecords_cons (jobsetId : String) (due : List JobRecord) (record : JobRecord)
    (records : List JobRecord) : p.pushRecords now jobsetId due (record :: records) =
      (p.pushRecord now jobsetId due record).1.pushRecords now jobsetId
        (p.pushRecord now jobsetId due record).2 records := rfl

theorem drainKeys_cons (flush : Bool) (records : List JobRecord) (key : Key) (keys : List Key) :
    p.drainKeys flush now records (key :: keys) =
      (p.drainKey flush now records key).1.drainKeys flush now
        (p.drainKey flush now records key).2 keys := rfl

/-- The records that wait under a key are records of that job. -/
def Keyed : Prop := ∀ key, ∀ record ∈ (p.lane key).waiting, record.jobKey = key.2

variable {p now}

theorem Keyed.offered {jobsetId : String} {record : JobRecord} {due : List JobRecord}
    {after : StatePacer × List JobRecord} (h : p.Keyed)
    (ha : p.Offered now jobsetId record due after) :
    after.1.Keyed := by
  intro key x hx
  by_cases hk : key = (jobsetId, record.jobKey)
  · subst hk
    rw [ha.lane_self] at hx
    obtain hx | rfl := Lane.mem_of_offer.2 hx
    · exact h _ x hx
    · rfl
  · exact h key x (ha.lane_other key hk ▸ hx)

theorem Keyed.turned {flush : Bool} {key : Key} {records : List JobRecord}
    {after : StatePacer × List JobRecord} (h : p.Keyed)
    (ha : p.Turned now flush key records after) :
    after.1.Keyed := by
  intro k x hx
  by_cases hk : k = key
  · subst hk
    rw [ha.lane_self] at hx
    exact h k x (Lane.mem_of_turn (.inl hx))
  · exact h k x (ha.lane_other k hk ▸ hx)

end StatePacer

end Lsfmgr.Pacer
