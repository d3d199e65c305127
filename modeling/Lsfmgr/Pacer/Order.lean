import Mathlib
import Lsfmgr.Pacer.Machine

/-!
# Pacer/Order — no transition is lost, and each is displayed in its turn

A call acts on the lane of each key as offers or turns, so what holds of a lane with its histories
and is kept by an offer (`pushRecords_lane`) or a turn (`drainKeys_lane`) is kept by the call.  With
that the lanes stay `Kept` and, until `stop`, `Paced`, whatever the slots call while an emission
runs.
-/

namespace Lsfmgr.Pacer

open Machinery

/-! ## One call, one lane -/

@[simp] theorem recordsOf_nil (key : Key) (jobsetId : String) : recordsOf key jobsetId [] = [] :=
  rfl

theorem recordsOf_append (key : Key) (jobsetId : String) (l m : List JobRecord) :
    recordsOf key jobsetId (l ++ m) = recordsOf key jobsetId l ++ recordsOf key jobsetId m :=
  List.filter_append l m

theorem recordsOf_of_eq {key : Key} {jobsetId : String} {records : List JobRecord}
    (h : ∀ r ∈ records, (jobsetId, r.jobKey) = key) : recordsOf key jobsetId records = records :=
  List.filter_eq_self.mpr fun r hr => decide_eq_true (h r hr)

theorem recordsOf_of_ne {key : Key} {jobsetId : String} {records : List JobRecord}
    (h : ∀ r ∈ records, (jobsetId, r.jobKey) ≠ key) : recordsOf key jobsetId records = [] :=
  List.filter_eq_nil_iff.mpr fun r hr => by simpa using h r hr

theorem recordsOf_cons (key : Key) (jobsetId : String) (r : JobRecord) (l : List JobRecord) :
    recordsOf key jobsetId (r :: l) = recordsOf key jobsetId [r] ++ recordsOf key jobsetId l :=
  recordsOf_append key jobsetId [r] l

theorem recordsOf_singleton_self (jobsetId : String) (r : JobRecord) :
    recordsOf (jobsetId, r.jobKey) jobsetId [r] = [r] := recordsOf_of_eq (by simp)

theorem recordsOf_singleton_of_ne {key : Key} {jobsetId : String} {r : JobRecord}
    (h : (jobsetId, r.jobKey) ≠ key) : recordsOf key jobsetId [r] = [] :=
  recordsOf_of_ne (by simpa using h)

section Calls

variable {wait now : ℚ} {jobsetId : String}

theorem dwell_pushRecords : ∀ (records : List JobRecord) (p : StatePacer) (due : List JobRecord),
    (p.pushRecords now jobsetId due records).1.dwell = p.dwell
  | [], _, _ => rfl
  | r :: records, p, due =>
      (dwell_pushRecords records _ _).trans (p.pushRecord_offered now jobsetId due r).dwell

/-- **The loop of `push` on one lane**: what an offer keeps, it keeps. -/
theorem pushRecords_lane (key : Key)
    {I : Lane JobState JobRecord ℚ → List JobRecord → List (ℚ × JobRecord) → Prop}
    (hI : ∀ l P E r, I l P E → I (Lane.offer JobRecord.state wait now l r).1 (P ++ [r])
      (E ++ (Lane.offer JobRecord.state wait now l r).2.toList.map fun r => (now, r))) :
    ∀ (records : List JobRecord) (p : StatePacer) (due P : List JobRecord)
      (E : List (ℚ × JobRecord)), p.wait = wait →
      I (p.lane key) P (E ++ (recordsOf key jobsetId due).map fun r => (now, r)) →
      I ((p.pushRecords now jobsetId due records).1.lane key) (P ++ recordsOf key jobsetId records)
        (E ++ (recordsOf key jobsetId (p.pushRecords now jobsetId due records).2).map
          fun r => (now, r))
  | [], p, due, P, E, _, h => by simpa [StatePacer.pushRecords] using h
  | r :: records, p, due, P, E, hw, h => by
      obtain ⟨hself, hother, hdue, hdwell⟩ := p.pushRecord_offered now jobsetId due r
      have hw' : (p.pushRecord now jobsetId due r).1.wait = wait := by
        rw [StatePacer.wait, hdwell, ← hw, StatePacer.wait]
      rw [StatePacer.pushRecords_cons, recordsOf_cons, ← List.append_assoc]
      refine pushRecords_lane key hI records _ _ _ E hw' ?_
      rw [hdue, recordsOf_append, hw]
      by_cases hk : (jobsetId, r.jobKey) = key
      · subst hk
        rw [hself, hw, recordsOf_singleton_self, List.map_append, ← List.append_assoc]
        have hown :
          ∀ x ∈ (Lane.offer JobRecord.state wait now (p.lane (jobsetId, r.jobKey)) r).2.toList,
            (jobsetId, x.jobKey) = (jobsetId, r.jobKey) := by
          intro x hx
          rw [Lane.mem_of_offer.1 (Option.mem_toList.mp hx)]
        rw [recordsOf_of_eq hown]
        exact hI _ _ _ r h
      · have hown :
          ∀ x ∈ (Lane.offer JobRecord.state wait now (p.lane (jobsetId, r.jobKey)) r).2.toList,
            (jobsetId, x.jobKey) ≠ key := by
          intro x hx
          rwa [Lane.mem_of_offer.1 (Option.mem_toList.mp hx)]
        rw [hother key (Ne.symm hk), recordsOf_singleton_of_ne hk,
          recordsOf_of_ne hown, List.append_nil, List.append_nil]
        exact h

theorem dwell_drainKeys (flush : Bool) :
    ∀ (keys : List Key) (p : StatePacer) (records : List JobRecord),
    (p.drainKeys flush now records keys).1.dwell = p.dwell
  | [], _, _ => rfl
  | key :: keys, p, records =>
      (dwell_drainKeys flush keys _ _).trans (p.drainKey_turned now flush records key).dwell

/-- **The inner loop of `_drain` on one lane**: what a turn keeps, it keeps. -/
theorem drainKeys_lane (flush : Bool) (key : Key)
    {I : Lane JobState JobRecord ℚ → List (ℚ × JobRecord) → Prop}
    (hI : ∀ l E, I l E → I (Lane.turn JobRecord.state wait now flush l).1
      (E ++ (Lane.turn JobRecord.state wait now flush l).2.toList.map fun r => (now, r))) :
    ∀ (keys : List Key) (p : StatePacer) (records : List JobRecord) (E : List (ℚ × JobRecord)),
      p.wait = wait → p.Keyed → (∀ k ∈ keys, k.1 = jobsetId) →
      I (p.lane key) (E ++ (recordsOf key jobsetId records).map fun r => (now, r)) →
      I ((p.drainKeys flush now records keys).1.lane key)
        (E ++ (recordsOf key jobsetId (p.drainKeys flush now records keys).2).map fun r => (now, r))
  | [], p, records, E, _, _, _, h => h
  | k :: keys, p, records, E, hw, hkeyed, hkeys, h => by
      have ht := p.drainKey_turned now flush records k
      have hw' : (p.drainKey flush now records k).1.wait = wait := by
        rw [StatePacer.wait, ht.dwell, ← hw, StatePacer.wait]
      obtain ⟨hk, hkeys⟩ := List.forall_mem_cons.mp hkeys
      rw [StatePacer.drainKeys_cons]
      refine drainKeys_lane flush key hI keys _ _ E hw' (hkeyed.turned ht) hkeys ?_
      have hown : ∀ x ∈ (Lane.turn JobRecord.state wait now flush (p.lane k)).2.toList,
          (jobsetId, x.jobKey) = k := by
        intro x hx
        have hmem := Lane.mem_of_turn (.inr (Option.mem_toList.mp hx))
        rw [hkeyed k x hmem, ← hk]
      rw [ht.records, recordsOf_append, hw]
      by_cases hkk : k = key
      · subst hkk
        rw [ht.lane_self, hw, recordsOf_of_eq hown, List.map_append, ← List.append_assoc]
        exact hI _ _ h
      · have hne : ∀ x ∈ (Lane.turn JobRecord.state wait now flush (p.lane k)).2.toList,
            (jobsetId, x.jobKey) ≠ key := fun x hx => (hown x hx).trans_ne hkk
        rw [ht.lane_other key (Ne.symm hkk), recordsOf_of_ne hne, List.append_nil]
        exact h

theorem Keyed.pushRecords : ∀ (records : List JobRecord) (p : StatePacer) (due : List JobRecord),
    p.Keyed → (p.pushRecords now jobsetId due records).1.Keyed
  | [], _, _, h => h
  | r :: records, p, due, h =>
      Keyed.pushRecords records _ _ (h.offered (p.pushRecord_offered now jobsetId due r))

theorem Keyed.drainKeys (flush : Bool) : ∀ (keys : List Key) (p : StatePacer)
    (records : List JobRecord), p.Keyed → (p.drainKeys flush now records keys).1.Keyed
  | [], _, _, h => h
  | key :: keys, p, records, h =>
      Keyed.drainKeys flush keys _ _ (h.turned (p.drainKey_turned now flush records key))

/-- A lane without a queue is not touched. -/
theorem lane_drainKeys_of_none (flush : Bool) {key : Key} : ∀ (keys : List Key) (p : StatePacer)
    (records : List JobRecord), (p.lane key).queue = none →
      (p.drainKeys flush now records keys).1.lane key = p.lane key
  | [], _, _, _ => rfl
  | k :: keys, p, records, h => by
      have ht := p.drainKey_turned now flush records k
      have hk : (p.drainKey flush now records k).1.lane key = p.lane key := by
        by_cases hkk : key = k
        · subst hkk
          rw [ht.lane_self, Lane.turn_of_queue_eq_none h]
        · exact ht.lane_other key hkk
      rw [StatePacer.drainKeys_cons, lane_drainKeys_of_none flush keys _ _ (hk ▸ h), hk]

/-- A flush of a key leaves it without a queue. -/
theorem queue_drainKeys_flush {key : Key} : ∀ (keys : List Key) (p : StatePacer)
    (records : List JobRecord), key ∈ keys → (p.lane key).queue ≠ some [] →
      ((p.drainKeys true now records keys).1.lane key).queue = none
  | k :: keys, p, records, hk, hne => by
      have ht := p.drainKey_turned now true records k
      rw [StatePacer.drainKeys_cons]
      by_cases hkk : key = k
      · subst hkk
        have hnone : ((p.drainKey true now records key).1.lane key).queue = none := by
          rw [ht.lane_self, Lane.queue_turn_flush hne]
        rw [lane_drainKeys_of_none true keys _ _ hnone, hnone]
      · refine queue_drainKeys_flush keys _ _ ((List.mem_cons.mp hk).resolve_left hkk) ?_
        rwa [ht.lane_other key hkk]

end Calls

/-! ## The lane of a key with its histories -/

/-- What is known of the lane of a key, `pushed` and `emitted` since the last `forget`. -/
structure Row (dwell clock : ℚ) (stopping : Bool) (l : Lane JobState JobRecord ℚ)
    (pushed : List JobRecord) (emitted : List (ℚ × JobRecord)) : Prop where
  kept : l.Kept pushed (emitted.map Prod.snd)
  shown_le : ∀ state since, l.shown = some (state, since) → since ≤ clock
  paced : stopping = false →
    Lane.Paced JobRecord.state (dwell - dueToleranceS) clock l pushed emitted

namespace Row

variable {dwell clock wait now : ℚ} {stopping : Bool} {l : Lane JobState JobRecord ℚ}
  {pushed : List JobRecord} {emitted : List (ℚ × JobRecord)}

theorem empty (dwell clock : ℚ) (stopping : Bool) : Row dwell clock stopping {} [] [] :=
  ⟨Lane.kept_empty, by simp, fun _ => Lane.paced_empty clock⟩

theorem mono {clock' : ℚ} (h : Row dwell clock stopping l pushed emitted) (hc : clock ≤ clock') :
    Row dwell clock' stopping l pushed emitted :=
  ⟨h.kept, fun state since hs => (h.shown_le state since hs).trans hc,
    fun hst => (h.paced hst).mono hc⟩

theorem stop (h : Row dwell clock stopping l pushed emitted) :
    Row dwell clock true l pushed emitted := ⟨h.kept, h.shown_le, by simp⟩

theorem clear (h : Row dwell clock true l pushed emitted) :
    Row dwell clock true { l with shown := none } pushed emitted :=
  ⟨⟨h.kept.sublist, h.kept.last, h.kept.queue_ne⟩, by simp, by simp⟩

theorem offer (h : Row dwell now stopping l pushed emitted)
    (hw : stopping = false → wait = dwell - dueToleranceS) (r : JobRecord) :
    Row dwell now stopping (Lane.offer JobRecord.state wait now l r).1 (pushed ++ [r])
      (emitted ++ (Lane.offer JobRecord.state wait now l r).2.toList.map fun r => (now, r)) := by
  refine ⟨?_, ?_, fun hst => ?_⟩
  · have hk : (Lane.offer JobRecord.state wait now l r).1.Kept (pushed ++ [r]) _ := h.kept.offer r
    simpa [Function.comp_def] using hk
  · intro state since hs
    obtain ⟨q, -, he⟩ | ⟨-, -, he⟩ | ⟨-, -, he⟩ | ⟨-, -, he⟩ :=
      Lane.offer_cases JobRecord.state wait now l r <;> rw [he] at hs
    · exact h.shown_le state since hs
    · exact h.shown_le state since hs
    · simp only [Option.some.injEq, Prod.mk.injEq] at hs
      exact hs.2.ge
    · exact h.shown_le state since hs
  · rw [hw hst]
    exact (h.paced hst).offer h.kept r

theorem turn {flush : Bool} (h : Row dwell clock stopping l pushed emitted)
    (hw : stopping = false → wait = dwell - dueToleranceS) (hf : flush = true → stopping = true)
    (hc : now ≤ clock) :
    Row dwell clock stopping (Lane.turn JobRecord.state wait now flush l).1 pushed
      (emitted ++ (Lane.turn JobRecord.state wait now flush l).2.toList.map fun r => (now, r)) := by
  refine ⟨?_, ?_, fun hst => ?_⟩
  · have hk : (Lane.turn JobRecord.state wait now flush l).1.Kept pushed _ := h.kept.turn flush
    simpa [Function.comp_def] using hk
  · intro state since hs
    obtain he | ⟨r, rest, -, -, next, -, he⟩ :=
      Lane.turn_cases JobRecord.state wait now flush l <;> rw [he] at hs
    · exact h.shown_le state since hs
    · simp only [Option.some.injEq, Prod.mk.injEq] at hs
      exact hs.2 ▸ hc
  · obtain rfl : flush = false := by
      cases flush
      · rfl
      · exact absurd (hf rfl) (by simp [hst])
    rw [hw hst]
    exact (h.paced hst).turn hc

theorem hide {d : ℚ} (h : Row dwell clock stopping l pushed emitted) (hc : now ≤ clock)
    (hd : stopping = false → d = dwell) :
    Row dwell clock stopping (Lane.hide now d l) pushed emitted := by
  refine ⟨h.kept.hide d, fun state since hs => h.shown_le state since (Lane.shown_of_hide hs),
    fun hst => (h.paced hst).hide hc ?_⟩
  rw [hd hst, dueToleranceS]
  linarith

end Row

/-! ## What every run keeps -/

/-- The batches a drain has left: keys of the jobset, and for a flush all that are queued. -/
structure Left (p : StatePacer) (stopping flush : Bool)
    (batches : List (String × List Key)) : Prop where
  jobset : ∀ b ∈ batches, ∀ key ∈ b.2, key.1 = b.1
  stopping : flush = true → stopping = true
  all : flush = true → ∀ key, (p.lane key).queue ≠ none → ∃ b ∈ batches, key ∈ b.2

/-- What a call has left to do, if it is a drain. -/
def Frame.Left (p : StatePacer) (stopping : Bool) : Frame → Prop
  | .push _ => True
  | .drain flush _ batches => Pacer.Left p stopping flush batches

/-- While the pacer stops, no key comes to be queued. -/
def Drains (stopping : Bool) (p p' : StatePacer) : Prop :=
  stopping = true → ∀ key, (p.lane key).queue = none → (p'.lane key).queue = none

theorem Left.mono {p p' : StatePacer} {stopping flush : Bool} {batches : List (String × List Key)}
    (h : Left p stopping flush batches) (hd : Drains stopping p p') :
    Left p' stopping flush batches :=
  ⟨h.jobset, h.stopping, fun hf key hq =>
    h.all hf key fun hn => hq (hd (h.stopping hf) key hn)⟩

theorem Frame.Left.mono {p p' : StatePacer} {stopping : Bool} {f : Frame}
    (h : f.Left p stopping) (hd : Drains stopping p p') : f.Left p' stopping := by
  obtain - | ⟨flush, now, batches⟩ := f
  · trivial
  · exact Pacer.Left.mono h hd

/-- **The invariant of a run.** -/
structure Inv (dwell : ℚ) (s : State) : Prop where
  keyed : s.pacer.Keyed
  row : ∀ key, Row dwell s.clock s.stopping (s.pacer.lane key) (s.pushed key) (s.emitted key)
  dwell_eq : s.pacer.dwell = if s.stopping then 0 else dwell
  frame : ∀ f ∈ s.stack, f.now ≤ s.clock ∧ f.Left s.pacer s.stopping
  done : s.stopped = true → s.stopping = true ∧ ∀ key, (s.pacer.lane key).queue = none

namespace Inv

variable {dwell now : ℚ} {s : State}

theorem wait_eq (h : Inv dwell s) : s.stopping = false → s.pacer.wait = dwell - dueToleranceS := by
  intro hst
  rw [StatePacer.wait, h.dwell_eq, hst]
  simp

theorem initial (dwell start : ℚ) : Inv dwell (initial dwell start) :=
  ⟨by simp [StatePacer.Keyed, Pacer.initial, StatePacer.lane, Lane.waiting],
    fun _ => Row.empty dwell start false, by simp [Pacer.initial], by simp [Pacer.initial],
    by simp [Pacer.initial]⟩

theorem prune (h : Inv dwell s) (limit : ℕ) (hc : now ≤ s.clock) :
    Inv dwell { s with pacer := s.pacer.prune limit now } := by
  have hqueue : ∀ key, ((s.pacer.prune limit now).lane key).queue = (s.pacer.lane key).queue := by
    intro key
    obtain he | he := s.pacer.lane_prune now limit key <;> rw [he]
    exact Lane.queue_hide now _ _
  have hdrains : Drains s.stopping s.pacer (s.pacer.prune limit now) := fun _ key hq => by
    rw [hqueue, hq]
  refine ⟨fun key r hr => h.keyed key r ?_, fun key => ?_, ?_,
    fun f hf => ⟨(h.frame f hf).1, (h.frame f hf).2.mono hdrains⟩,
    fun hd => ⟨(h.done hd).1, fun key => by rw [hqueue, (h.done hd).2 key]⟩⟩
  · rwa [Lane.waiting, hqueue] at hr
  · obtain he | he := s.pacer.lane_prune now limit key
    · exact he ▸ h.row key
    · refine he ▸ (h.row key).hide hc fun hst => ?_
      rw [h.dwell_eq, hst]
      simp
  · rw [← h.dwell_eq, StatePacer.prune]
    split <;> rfl

/-- A call moves the lanes and their histories, and reads the clock. -/
theorem moved (h : Inv dwell s) {p : StatePacer} {clock : ℚ} {pushed : Key → List JobRecord}
    {emitted : Key → List (ℚ × JobRecord)} (hc : s.clock ≤ clock) (hkeyed : p.Keyed)
    (hdwell : p.dwell = s.pacer.dwell) (hdrains : Drains s.stopping s.pacer p)
    (hrow : ∀ key, Row dwell clock s.stopping (p.lane key) (pushed key) (emitted key)) :
    Inv dwell { s with pacer := p, clock := clock, pushed := pushed, emitted := emitted } :=
  ⟨hkeyed, hrow, hdwell ▸ h.dwell_eq,
    fun f hf => ⟨(h.frame f hf).1.trans hc, (h.frame f hf).2.mono hdrains⟩,
    fun hd => ⟨(h.done hd).1, fun key => hdrains (h.done hd).1 key ((h.done hd).2 key)⟩⟩

/-- A call that waits for its emission. -/
theorem pending (h : Inv dwell s) {f : Frame} (hc : f.now ≤ s.clock)
    (hl : f.Left s.pacer s.stopping)
    (emissions : List Emission) :
    Inv dwell { s with stack := f :: s.stack, emissions := emissions } :=
  ⟨h.keyed, h.row, h.dwell_eq, fun g hg => by
    obtain rfl | hg := List.mem_cons.mp hg
    · exact ⟨hc, hl⟩
    · exact h.frame g hg, h.done⟩

/-- A call that goes on. -/
theorem returned (h : Inv dwell s) {f : Frame} {stack : List Frame} (hs : s.stack = f :: stack) :
    Inv dwell { s with stack := stack } :=
  ⟨h.keyed, h.row, h.dwell_eq, fun g hg => h.frame g (hs ▸ List.mem_cons_of_mem f hg), h.done⟩

theorem forget (h : Inv dwell s) (jobsetId : String) (jobKeys : Option (List String)) :
    Inv dwell (s.forget jobsetId jobKeys) := by
  have hdrains : Drains s.stopping s.pacer (s.pacer.forget jobsetId jobKeys) := by
    intro _ key hq
    rw [StatePacer.lane_forget]
    split
    · rfl
    · exact hq
  refine ⟨fun key r hr => ?_, fun key => ?_, h.dwell_eq,
    fun f hf => ⟨(h.frame f hf).1, (h.frame f hf).2.mono hdrains⟩,
    fun hd => ⟨(h.done hd).1, fun key => hdrains (h.done hd).1 key ((h.done hd).2 key)⟩⟩
  · simp only [State.forget, StatePacer.lane_forget] at hr
    split at hr
    · cases hr
    · exact h.keyed key r hr
  · simp only [State.forget, StatePacer.lane_forget]
    split
    · exact Row.empty dwell s.clock s.stopping
    · exact h.row key

/-- The loop of `push`, with what it is about to emit. -/
theorem pushRecords (h : Inv dwell s) (hc : s.clock ≤ now) (jobsetId : String)
    (records : List JobRecord) : Inv dwell { s with
      pacer := (s.pacer.pushRecords now jobsetId [] records).1
      clock := now
      pushed := fun key => s.pushed key ++ recordsOf key jobsetId records
      emitted := fun key => s.emitted key ++
        (recordsOf key jobsetId (s.pacer.pushRecords now jobsetId [] records).2).map
          fun r => (now, r) } := by
  have hrow : ∀ key,
      Row dwell now s.stopping ((s.pacer.pushRecords now jobsetId [] records).1.lane key)
          (s.pushed key ++ recordsOf key jobsetId records)
          (s.emitted key ++
            (recordsOf key jobsetId (s.pacer.pushRecords now jobsetId [] records).2).map
            fun r => (now, r)) ∧
        (s.stopping = true → (s.pacer.lane key).queue = none →
          ((s.pacer.pushRecords now jobsetId [] records).1.lane key).queue = none) := by
    intro key
    refine pushRecords_lane (I := fun l P E => Row dwell now s.stopping l P E ∧
      (s.stopping = true → (s.pacer.lane key).queue = none → l.queue = none)) key ?_
        records s.pacer []
      (s.pushed key) (s.emitted key) rfl ⟨by simpa using (h.row key).mono hc, fun _ hq => hq⟩
    intro l P E r hI
    refine ⟨hI.1.offer h.wait_eq r, fun hst hq => Lane.queue_offer_of_le (fun state since hs => ?_)
      (hI.2 hst hq)⟩
    have hle := hI.1.shown_le state since hs
    rw [StatePacer.wait, h.dwell_eq, hst, if_pos rfl, dueToleranceS]
    linarith
  exact h.moved hc (Keyed.pushRecords records s.pacer [] h.keyed)
    (dwell_pushRecords records s.pacer [])
    (fun hst key hq => (hrow key).2 hst hq) fun key => (hrow key).1

theorem push (h : Inv dwell s) (limit : ℕ) (hc : s.clock ≤ now) (jobsetId : String)
    (records : List JobRecord) :
    Inv dwell (s.push (StatePacer.prune limit) now jobsetId records) := by
  have hs := h.pushRecords hc jobsetId records
  rw [State.push]
  by_cases hdue : (s.pacer.pushRecords now jobsetId [] records).2 = []
  · simp only [hdue, if_true]
    simp only [hdue, recordsOf_nil, List.map_nil, List.append_nil] at hs
    exact hs.prune limit le_rfl
  · simp only [hdue, if_false]
    exact hs.pending (f := .push now) le_rfl trivial _

theorem drainFrom {flush : Bool} : ∀ {batches : List (String × List Key)} {s : State},
    Inv dwell s → now ≤ s.clock → Left s.pacer s.stopping flush batches →
      Inv dwell (s.drainFrom flush now batches)
  | [], s, h, hc, hl => by
      rw [State.drainFrom]
      split
      case isFalse => exact h
      case isTrue hf =>
        have hst := hl.stopping hf
        have hnone : ∀ key, (s.pacer.lane key).queue = none := by
          intro key
          by_contra hq
          obtain ⟨b, hb, -⟩ := hl.all hf key hq
          cases hb
        have hlane : ∀ key, ({ s.pacer with shown := ∅ } : StatePacer).lane key =
            { s.pacer.lane key with shown := none } := fun _ => rfl
        have hdrains : Drains s.stopping s.pacer { s.pacer with shown := ∅ } := fun _ _ hq => hq
        refine ⟨h.keyed, fun key => ?_, h.dwell_eq,
          fun f hf => ⟨(h.frame f hf).1, (h.frame f hf).2.mono hdrains⟩, fun _ => ⟨hst, hnone⟩⟩
        have hr := h.row key
        rw [hst] at hr
        change Row dwell s.clock s.stopping _ _ _
        rw [hst, hlane]
        exact hr.clear
  | (jobsetId, keys) :: rest, s, h, hc, hl => by
      have hkeys : ∀ k ∈ keys, k.1 = jobsetId := hl.jobset (jobsetId, keys) List.mem_cons_self
      have hrow : ∀ key, Row dwell s.clock s.stopping
          ((s.pacer.drainKeys flush now [] keys).1.lane key) (s.pushed key) (s.emitted key ++
            (recordsOf key jobsetId (s.pacer.drainKeys flush now [] keys).2).map
                fun r => (now, r)) := by
        intro key
        refine drainKeys_lane (I := fun l E => Row dwell s.clock s.stopping l (s.pushed key) E)
          flush key
          (fun l E hI => hI.turn h.wait_eq hl.stopping hc) keys s.pacer []
            (s.emitted key) rfl h.keyed
          hkeys ?_
        simpa using h.row key
      have hdrains : Drains s.stopping s.pacer (s.pacer.drainKeys flush now [] keys).1 :=
        fun _ key hq => by rw [lane_drainKeys_of_none flush keys s.pacer [] hq, hq]
      have hs : Inv dwell { s with
          pacer := (s.pacer.drainKeys flush now [] keys).1
          emitted := fun key => s.emitted key ++
            (recordsOf key jobsetId (s.pacer.drainKeys flush now [] keys).2).map
                fun r => (now, r) } :=
        h.moved le_rfl (Keyed.drainKeys flush keys s.pacer [] h.keyed)
          (dwell_drainKeys flush keys s.pacer []) hdrains hrow
      have hleft : Left (s.pacer.drainKeys flush now [] keys).1 s.stopping flush rest := by
        refine ⟨fun b hb => hl.jobset b (List.mem_cons_of_mem _ hb), hl.stopping,
          fun hf key hq => ?_⟩
        obtain ⟨b, hb, hkey⟩ := (hl.mono hdrains).all hf key hq
        obtain rfl | hb := List.mem_cons.mp hb
        · subst hf
          exact absurd (queue_drainKeys_flush keys s.pacer [] hkey (h.row key).kept.queue_ne) hq
        · exact ⟨b, hb, hkey⟩
      rw [State.drainFrom]
      by_cases hrec : (s.pacer.drainKeys flush now [] keys).2 = []
      · simp only [hrec, if_true]
        simp only [hrec, recordsOf_nil, List.map_nil, List.append_nil] at hs
        exact drainFrom hs hc hleft
      · simp only [hrec, if_false]
        exact hs.pending (f := .drain flush now rest) hc hleft _

/-- The clock goes on. -/
theorem tick (h : Inv dwell s) (elapsed : NNRat) :
    Inv dwell { s with clock := s.clock + elapsed } :=
  have hle : s.clock ≤ s.clock + elapsed := by simp
  h.moved hle h.keyed rfl (fun _ _ hq => hq) fun key => (h.row key).mono hle

theorem step (h : Inv dwell s) (limit : ℕ) (a : Act) :
    Inv dwell (s.step (StatePacer.prune limit) a) := by
  have hle : ∀ elapsed : NNRat, s.clock ≤ s.clock + elapsed := fun elapsed => by simp
  have hbatch : ∀ b ∈ s.pacer.batches.entries, ∀ key ∈ b.2, key.1 = b.1 := fun b hb key hk =>
    s.pacer.fst_of_mem_batches hb hk
  have hall :
      ∀ key, (s.pacer.lane key).queue ≠ none → ∃ b ∈ s.pacer.batches.entries, key ∈ b.2 := by
    intro key hq
    obtain ⟨keys, hb, hk⟩ := s.pacer.mem_batches hq
    exact ⟨(key.1, keys), hb, hk⟩
  cases a with
  | push elapsed jobsetId records => exact h.push limit (hle elapsed) jobsetId records
  | forget jobsetId jobKeys => exact h.forget jobsetId jobKeys
  | drain elapsed => exact (h.tick elapsed).drainFrom le_rfl ⟨hbatch, by simp, by simp⟩
  | stop elapsed =>
    have hs : Inv dwell { s with
        clock := s.clock + elapsed
        pacer := { s.pacer with dwell := 0 }
        stopping := true } := by
      refine ⟨h.keyed, fun key => ((h.row key).mono (hle elapsed)).stop, by simp, fun f hf => ?_,
        fun hd => ⟨rfl, (h.done hd).2⟩⟩
      obtain ⟨hc, hl⟩ := h.frame f hf
      refine ⟨hc.trans (hle elapsed), ?_⟩
      obtain - | ⟨flush, now, batches⟩ := f
      · trivial
      · exact ⟨hl.jobset, fun _ => rfl, hl.all⟩
    exact hs.drainFrom le_rfl ⟨hbatch, fun _ => rfl, fun _ => hall⟩
  | resume elapsed =>
    have h := h.tick elapsed
    rw [State.step]
    split
    case h_1 => exact h
    case h_2 now stack hst =>
      have hf := h.frame (.push now) (hst ▸ List.mem_cons_self)
      exact (h.returned hst).prune limit hf.1
    case h_3 flush now batches stack hst =>
      have hf := h.frame (.drain flush now batches) (hst ▸ List.mem_cons_self)
      exact (h.returned hst).drainFrom hf.1 hf.2

end Inv

theorem inv_runWith (limit : ℕ) (dwell start : ℚ) (acts : List Act) :
    Inv dwell (runWith (StatePacer.prune limit) dwell start acts) :=
  runWith_induction (.initial dwell start) (fun _ a h => h.step limit a) acts

/-! ## The order, and the pace -/

/-- **The pacer loses and reorders nothing**, whatever its slots call: for every key since its last
`forget`, the states emitted and then those queued are the states pushed, runs of one state taken as
one.  By the times the emitting calls have read when they began, the records that are the first of
their state to be emitted come at least `dwell` less the tolerance after one another; a record of
the state on display is emitted at once, and does not count.  Both hold until `stop`.  All that is
emitted was pushed since the `forget`, and after `stop` the last record pushed is the last one
emitted. -/
theorem paced_in_order (dwell start : ℚ) (acts : List Act) (key : Key) :
    let s := run dwell start acts
    let queued := (s.pacer.queue.get? key).getD []
    (s.stopping = false →
      (((s.emitted key).map fun e => e.2.state) ++ queued.map JobRecord.state).destutter (· ≠ ·) =
          ((s.pushed key).map JobRecord.state).destutter (· ≠ ·) ∧
        (runs (fun e : ℚ × JobRecord => e.2.state) (s.emitted key)).IsChain fun e e' =>
          dwell - dueToleranceS ≤ e'.1 - e.1) ∧
      ((s.emitted key).map Prod.snd ++ queued).Sublist (s.pushed key) ∧
      (s.stopped = true → ((s.emitted key).map Prod.snd).getLast? = (s.pushed key).getLast?) := by
  intro s queued
  have hinv : Inv dwell s := inv_runWith pruneAt dwell start acts
  have hrow := hinv.row key
  refine ⟨fun hst => ⟨?_, ?_⟩, hrow.kept.sublist, fun hd => ?_⟩
  · have ho := (hrow.paced hst).order
    rwa [List.map_append, List.map_map] at ho
  · refine (hrow.paced hst).apart.imp fun e e' he => ?_
    linarith
  · have hl := hrow.kept.last
    rwa [Lane.waiting, (hinv.done hd).2 key, Option.getD_none, List.append_nil] at hl

/-- A job that goes from PEND to RUN, with a refresh of its record a moment before. -/
def refreshed : List Act :=
  let record (state : JobState) : JobRecord :=
    { jobsetId := "js", jobKey := "k", state := state, generation := 0 }
  [.push 0 "js" [record .pend], .push ⟨9 / 10, by norm_num⟩ "js" [record .pend],
    .push ⟨1 / 10, by norm_num⟩ "js" [record .run]]

theorem paced_in_order_refreshed :
    ((((run 1 0 refreshed).emitted ("js", "k")).map fun e => e.2.state) ++
        (((run 1 0 refreshed).pacer.queue.get? ("js", "k")).getD []).map JobRecord.state).destutter
          (· ≠ ·) =
      (((run 1 0 refreshed).pushed ("js", "k")).map JobRecord.state).destutter (· ≠ ·) :=
  ((paced_in_order 1 0 refreshed ("js", "k")).1 (by decide +kernel)).1

/-- The refresh and the new state are emitted a tenth of the dwell after one another. -/
theorem not_spaced_emissions : ¬ ∀ (dwell start : ℚ) (acts : List Act) (key : Key),
    (run dwell start acts).stopping = false →
      ((run dwell start acts).emitted key).IsChain fun e e' =>
        e.2.state ≠ e'.2.state → dwell - dueToleranceS ≤ e'.1 - e.1 := by
  intro h
  exact absurd (h 1 0 refreshed ("js", "k") (by decide +kernel)) (by decide +kernel)

/-- The displays of two jobs come due in one drain, and a slot takes nine tenths of the dwell for
the first; the second goes on to its next state as soon as the drain's own time allows. -/
def slowSlot : List Act :=
  let record (jobsetId : String) (state : JobState) : JobRecord :=
    { jobsetId := jobsetId, jobKey := "k", state := state, generation := 0 }
  let nine : NNRat := ⟨9 / 10, by norm_num⟩
  [.push 0 "x" [record "x" .pend], .resume 0, .push 0 "y" [record "y" .pend], .resume 0,
    .push 0 "x" [record "x" .run], .push 0 "y" [record "y" .run, record "y" .done],
    .drain 1, .resume nine, .resume 0, .drain ⟨1 / 10, by norm_num⟩]

/-- By the clock two states of one job can be displayed a tenth of the dwell after one another: a
drain stamps every jobset with the time it read before the slots of the earlier ones ran. -/
theorem not_spaced_by_clock : ¬ ∀ (dwell start : ℚ) (acts : List Act) (key : Key),
    (run dwell start acts).stopping = false →
      ((run dwell start acts).emissions.filter fun e =>
        decide (recordsOf key e.jobsetId e.records ≠ [])).IsChain fun e e' =>
          e.records.map JobRecord.state ≠ e'.records.map JobRecord.state →
            dwell - dueToleranceS ≤ e'.clock - e.clock := by
  intro h
  exact absurd (h 1 0 slowSlot ("y", "k") (by decide +kernel)) (by decide +kernel)

end Lsfmgr.Pacer
