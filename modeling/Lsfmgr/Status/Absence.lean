import Mathlib
import Lsfmgr.Status.Fresh

/-!
# Status/Absence — an id without a row was looked for

The rows of a payload are filtered with the interest set as it is when the callback has returned.
So an id that is registered before a fetch starts, and not dropped, is in the filter of the fetch
(`Watched.merged`).  A call that registers an id anew waits for such a fetch.  A call that finds the
id registered already does not: it may be answered from a fetch that started before, and then nobody
has looked for the id.
-/

namespace Lsfmgr.Status

open Machinery

/-- The terms of a call, once it has read the clock. -/
def AskStage.terms? : AskStage → Option Terms
  | .ensuring p | .waiting p _ _ _ | .fetched p _ _ | .answered p _ _ _ => some p
  | .begun | .registered _ | .failed | .raised => none

/-- The filter of a fetch, once its payload is parsed. -/
def FetchStage.keep? : FetchStage → Option (Finset ℕ)
  | .uncounting (.rows keep _) | .finishing (.rows keep _) _ => some keep
  | _ => none

variable {o : Options} {s s' : State} {id : ℕ}

/-- The filter of a fetch has the id, if a call for it had read its clock before the fetch
started. -/
def Covers (id : ℕ) (s : State) (fetchAt : ℤ) (keep : Finset ℕ) : Prop :=
  ∀ c ∈ s.callers, ∀ p, c.stage.terms? = some p → id ∈ c.ids → p.started < fetchAt → id ∈ keep

/-- **An id that is never dropped is in the filter of every fetch that starts after a call for
it.** -/
structure Watched (id : ℕ) (s : State) : Prop where
  interest : ∀ c ∈ s.callers, id ∈ c.ids → c.stage ≠ .begun → id ∈ s.src.interest
  started : ∀ c ∈ s.callers, ∀ p, c.stage.terms? = some p → p.started ≤ s.clock
  begun : ∀ w ∈ s.workers, w.stage ≠ .starting → w.fetchAt ≤ s.clock
  kept : ∀ w ∈ s.workers, ∀ keep, w.stage.keep? = some keep → Covers id s w.fetchAt keep
  past : ∀ f ∈ s.merged, f.1 ≤ s.clock
  merged : ∀ f ∈ s.merged, Covers id s f.1 f.2

theorem watched_init (o : Options) (id : ℕ) : Watched id { src := o.source } where
  interest c hc := by cases hc
  started c hc := by cases hc
  begun w hw := by cases hw
  kept w hw := by cases hw
  past f hf := by cases hf
  merged f hf := by cases hf

/-! ## What a step does to the callers, and to the fetches -/

/-- What a step of the call `c` leaves. -/
structure Asked (s : State) (c c' : Caller) (s' : State) : Prop where
  clock : s.clock ≤ s'.clock
  merged : s'.merged = s.merged
  workers : ∀ w ∈ s'.workers, w ∈ s.workers ∨ w.stage = .starting
  ids : c'.ids = c.ids
  terms : ∀ p, c'.stage.terms? = some p → c.stage.terms? = some p ∨ p.started = s.clock
  interest : s.src.interest ⊆ s'.src.interest
  registered : c.stage = .begun → ∀ id ∈ c.ids, id ∈ s'.src.interest

section Ask

variable {c : Caller} {j : ℕ} {p : Terms} {r : Reads}

theorem asked_setCaller (s : State) (stage : AskStage) (hterms : ∀ p, stage.terms? = some p →
    c.stage.terms? = some p ∨ p.started = s.clock) (hstage : c.stage ≠ .begun) :
    Asked s c { c with stage } (s.setCaller j c stage) :=
  ⟨le_rfl, rfl, fun _ hw => .inl hw, rfl, hterms, Finset.Subset.refl _, fun hb => absurd hb hstage⟩

theorem asked_putOff (hr : r.After s.clock) (hstage : c.stage ≠ .begun) :
    Asked s c { c with stage := .failed } (s.putOff j c r) :=
  ⟨hr.le_note, rfl, fun _ hw => .inl hw, rfl, fun _ hp => (by cases hp),
    (Source.noteOutcome_frame _ _ _ _).2.1.symm.subset, fun hb => absurd hb hstage⟩

theorem asked_await (hr : r.After s.clock) (hp : c.stage.terms? = some p)
    (hstage : c.stage ≠ .begun) :
    ∃ stage, (s.await j c p r).callers = replaceAt s.callers j [{ c with stage }] ∧
      Asked s c { c with stage } (s.await j c p r) := by
  rw [State.await]
  split
  · exact ⟨_, rfl, asked_putOff hr hstage⟩
  · exact ⟨_, rfl, hr.le_note, rfl, fun _ hw => .inl hw, rfl, fun q hq => .inl (hp.trans hq),
      Finset.Subset.refl _, fun hb => absurd hb hstage⟩

theorem launch_workers (s : State) (r : Reads) (startOk : Bool) :
    (∀ w ∈ (s.launch o r startOk).workers, w ∈ s.workers ∨ w.stage = .starting) ∧
      (s.launch o r startOk).src.interest = s.src.interest := by
  cases startOk with
  | false => exact ⟨fun _ hw => .inl hw, rfl⟩
  | true => exact ⟨fun w hw => (List.mem_cons.mp hw).elim (fun heq => .inr (heq ▸ rfl)) .inl, rfl⟩

theorem asked_round (hr : r.After s.clock) (hp : c.stage.terms? = some p) (startOk : Bool) :
    ∃ stage, (s.round o j c p r startOk).callers = replaceAt s.callers j [{ c with stage }] ∧
      Asked s c { c with stage } (s.round o j c p r startOk) := by
  have hstage : c.stage ≠ .begun := fun h => by simp [h, AskStage.terms?] at hp
  obtain ⟨hcallers, hclock, hmerged, -⟩ := launch_frame (o := o) s r startOk
  obtain ⟨hworkers, hinterest⟩ := launch_workers (o := o) s r startOk
  rw [State.round]
  split
  · exact ⟨_, rfl, asked_setCaller s _ (fun _ hq => by cases hq) hstage⟩
  · split
    · exact ⟨_, rfl, asked_setCaller s _ (fun _ hq => .inl (hp.trans hq)) hstage⟩
    · split
      · exact ⟨_, rfl, asked_putOff hr hstage⟩
      · exact asked_await hr hp hstage
      · dsimp only
        split
        · obtain ⟨stage, hc, h⟩ := asked_await (s := s.launch o r startOk) (j := j)
            (hclock.symm ▸ hr) hp hstage
          refine ⟨stage, hcallers ▸ hc, hclock ▸ h.clock, h.merged.trans hmerged,
            fun w hw => ?_, rfl, hclock ▸ h.terms, hinterest ▸
            h.interest, fun hb => absurd hb hstage⟩
          exact (h.workers w hw).elim (hworkers w) .inr
        · exact ⟨.raised, by rw [State.setCaller, ← hcallers], hr.le_note, hmerged, hworkers, rfl,
            fun _ hq => (by cases hq), hinterest.symm.subset, fun hb => absurd hb hstage⟩

theorem asked_wake (hr : r.After s.clock) {before : WithBot ℤ} {gen n : ℕ}
    (hstage : c.stage = .waiting p before gen n) (notified startOk : Bool) :
    ∃ stage, (s.wake o j c p before gen n notified r startOk).callers
        = replaceAt s.callers j [{ c with stage }] ∧
      Asked s c { c with stage } (s.wake o j c p before gen n notified r startOk) := by
  have hp : c.stage.terms? = some p := by rw [hstage]; rfl
  have hne : c.stage ≠ .begun := fun h => by simp [h, AskStage.terms?] at hp
  rw [State.wake]
  split
  · exact ⟨_, rfl, asked_putOff hr hne⟩
  · split
    · exact ⟨_, rfl, asked_setCaller s _ (fun _ hq => by cases hq) hne⟩
    · split
      · exact asked_round hr hp startOk
      · split
        · exact ⟨_, rfl, asked_setCaller s _ (fun _ hq => by cases hq) hne⟩
        · split
          · exact ⟨_, rfl, asked_setCaller s _ (fun _ hq => .inl (hp.trans hq)) hne⟩
          · exact asked_round hr hp startOk

/-- **A step of a call** replaces it. -/
theorem ask_asked {a : Act} (hs : s.ask o j c a = some s') :
    ∃ c', s'.callers = replaceAt s.callers j [c'] ∧ Asked s c c' s' := by
  cases a with
  | register =>
    simp only [State.ask] at hs
    split at hs
    case h_1 hstage =>
      obtain rfl := Option.some.inj hs
      refine ⟨_, rfl, le_rfl, rfl, fun _ hw => .inl hw, rfl, fun _ hp => (by cases hp),
        Finset.subset_union_left, fun _ id hid => ?_⟩
      exact Finset.mem_union_right _ (List.mem_toFinset.mpr hid)
    case h_2 => cases hs
  | setOut =>
    simp only [State.ask] at hs
    split at hs
    case h_1 fresh hstage =>
      obtain rfl := Option.some.inj hs
      refine ⟨_, rfl, le_rfl, rfl, fun _ hw => .inl hw, rfl, fun p hp => .inr ?_,
        Finset.Subset.refl _, fun hb => by rw [hstage] at hb; cases hb⟩
      obtain rfl := Option.some.inj hp
      rfl
    case h_2 => cases hs
  | check =>
    simp only [State.ask] at hs
    split at hs
    case h_1 p hstage =>
      split at hs
      case isTrue hr =>
        obtain rfl := Option.some.inj hs
        obtain ⟨stage, hc, h⟩ := asked_round (o := o) (s := s) (j := j) hr
          (show c.stage.terms? = some p by rw [hstage]; rfl) _
        exact ⟨_, hc, h⟩
      case isFalse => cases hs
    case h_2 => cases hs
  | wake =>
    simp only [State.ask] at hs
    split at hs
    case h_1 hstage =>
      split at hs
      case isTrue hr =>
        obtain rfl := Option.some.inj hs
        obtain ⟨stage, hc, h⟩ := asked_wake (o := o) (s := s) (j := j) hr hstage _ _
        exact ⟨_, hc, h⟩
      case isFalse => cases hs
    case h_2 => cases hs
  | read =>
    simp only [State.ask] at hs
    split at hs
    case h_1 p n upTo hstage =>
      obtain rfl := Option.some.inj hs
      exact ⟨_, rfl, asked_setCaller s _ (fun q hq => .inl (by rw [hstage]; exact hq))
        (by rw [hstage]; exact AskStage.noConfusion)⟩
    case h_2 => cases hs
  | _ => cases hs

end Ask

/-- What a step of the fetch `w` leaves. -/
structure Fetched (s : State) (w : Worker) (s' : State) : Prop where
  callers : s'.callers = s.callers
  clock : s'.clock = s.clock
  workers : ∀ w' ∈ s'.workers, w' ∈ s.workers ∨ w'.fetchAt = s.clock ∧ w'.stage.keep? = none ∨
    w.stage ≠ .starting ∧ w'.fetchAt = w.fetchAt ∧
      ∀ keep, w'.stage.keep? = some keep → w.stage.keep? = some keep ∨ keep = s.src.interest
  merged : s'.merged = s.merged ∨ w.stage ≠ .starting ∧ ∃ keep, w.stage.keep? = some keep ∧
    s'.merged = s.merged ++ [(w.fetchAt, keep)]

section Fetch

variable {w : Worker} {i : ℕ}

theorem fetched_setWorker {s₁ : State} {stage : FetchStage} (hcallers : s₁.callers = s.callers)
    (hclock : s₁.clock = s.clock) (hworkers : s₁.workers = s.workers)
    (hmerged : s₁.merged = s.merged)
    (hstage : w.stage ≠ .starting)
    (hkeep : ∀ keep, stage.keep? = some keep → w.stage.keep? = some keep ∨ keep = s.src.interest) :
    Fetched s w (s₁.setWorker i w stage) where
  callers := hcallers
  clock := hclock
  workers w' hw' := by
    rcases mem_replaceAt hw' with hw' | hw'
    · exact .inl (hworkers ▸ hw')
    · obtain rfl := List.mem_singleton.mp hw'
      exact .inr (.inr ⟨hstage, rfl, hkeep⟩)
  merged := .inl hmerged

/-- A parse takes the interest set as it is; the other steps keep the filter, or have none. -/
theorem keep?_nextStage {a : Act} {stage : FetchStage}
    (h : State.nextStage s.src.interest w a = some stage) :
    w.stage ≠ .starting ∧
      ∀ keep, stage.keep? = some keep → w.stage.keep? = some keep ∨ keep = s.src.interest := by
  cases a with
  | call k =>
    simp only [State.nextStage] at h
    split at h
    case h_2 hstage =>
      split at h
      case isTrue => obtain rfl :=
        Option.some.inj h; exact ⟨by simp [hstage], fun _ hk => by cases hk⟩
      case isFalse => cases h
    case h_4 => cases h
    all_goals rename_i hstage; obtain rfl := Option.some.inj h
    all_goals exact ⟨by simp [hstage], fun _ hk => by cases hk⟩
  | «return» k =>
    simp only [State.nextStage] at h
    split at h
    case h_3 => cases h
    all_goals rename_i hstage; obtain rfl := Option.some.inj h
    all_goals exact ⟨by simp [hstage], fun _ hk => by cases hk⟩
  | raise k aborted =>
    simp only [State.nextStage] at h
    split at h
    case h_3 => cases h
    all_goals rename_i hstage; obtain rfl := Option.some.inj h
    all_goals exact ⟨by simp [hstage], fun _ hk => by cases aborted <;> cases hk⟩
  | parse k rows =>
    simp only [State.nextStage] at h
    split at h
    case h_3 => cases h
    all_goals rename_i hstage; obtain rfl := Option.some.inj h
    all_goals
      refine ⟨by simp [hstage], fun keep hk => .inr ?_⟩
      cases rows with
      | none => cases hk
      | some rows => exact (Option.some.inj hk).symm
  | _ => cases h

theorem keep?_finishing (outcome : Outcome) (served : Bool) :
    (FetchStage.finishing outcome served).keep? = (FetchStage.uncounting outcome).keep? := by
  cases outcome <;> rfl

/-- **A step of a fetch.** -/
theorem fetch_fetched {a : Act} (hs : s.fetch o i w a = some s') : Fetched s w s' := by
  have hnext : ∀ a, (State.nextStage s.src.interest w a).map (s.setWorker i w) = some s' →
      Fetched s w s' := by
    intro a ha
    obtain ⟨stage, hstage, rfl⟩ := Option.map_eq_some_iff.mp ha
    obtain ⟨hne, hkeep⟩ := keep?_nextStage hstage
    exact fetched_setWorker rfl rfl rfl rfl hne hkeep
  cases a with
  | begin k now =>
    simp only [State.fetch] at hs
    split at hs
    case h_1 hstage =>
      obtain rfl := Option.some.inj hs
      refine ⟨rfl, rfl, fun w' hw' => ?_, .inl rfl⟩
      rcases mem_replaceAt hw' with hw' | hw'
      · exact .inl hw'
      · obtain rfl := List.mem_singleton.mp hw'
        exact .inr (.inl ⟨rfl, rfl⟩)
    case h_2 => cases hs
  | count k =>
    simp only [State.fetch] at hs
    split at hs
    case h_1 hstage =>
      split at hs
      case isTrue => cases hs
      case isFalse =>
        obtain rfl := Option.some.inj hs
        exact fetched_setWorker rfl rfl rfl rfl (by simp [hstage]) fun _ hk => by cases hk
    case h_2 => cases hs
  | uncount k =>
    simp only [State.fetch] at hs
    split at hs
    case h_1 outcome hstage =>
      split at hs
      · obtain rfl := Option.some.inj hs
        exact fetched_setWorker rfl rfl rfl rfl (by simp [hstage]) fun _ hk => by cases hk
      · obtain rfl := Option.some.inj hs
        refine fetched_setWorker rfl rfl rfl rfl (by simp [hstage]) fun keep hk => .inl ?_
        rw [hstage]
        exact (keep?_finishing _ _).symm.trans hk
    case h_2 => cases hs
  | finish k =>
    simp only [State.fetch] at hs
    split at hs
    case h_1 outcome served hstage =>
      obtain rfl := Option.some.inj hs
      refine ⟨rfl, rfl, fun w' hw' => ?_, ?_⟩
      · exact (mem_replaceAt hw').elim .inl fun h => by cases h
      · cases outcome with
        | rows keep rows => exact .inr ⟨by simp [hstage], keep, by rw [hstage]; rfl, rfl⟩
        | failed => exact .inl rfl
        | aborted => exact .inl rfl
    case h_2 => cases hs
  | call k => exact hnext (.call k) hs
  | «return» k => exact hnext (.return k) hs
  | raise k aborted => exact hnext (.raise k aborted) hs
  | parse k rows => exact hnext (.parse k rows) hs
  | _ => cases hs

end Fetch

/-! ## Every run -/

namespace Watched

/-- A step that leaves the calls and the fetches alone. -/
theorem world (h : Watched id s) (hc : s'.callers = s.callers) (hw : s'.workers = s.workers)
    (hm : s'.merged = s.merged) (hclock : s.clock ≤ s'.clock)
    (hkeep : id ∈ s.src.interest → id ∈ s'.src.interest) : Watched id s' where
  interest c hmem hid hstage := hkeep (h.interest c (hc ▸ hmem) hid hstage)
  started c hmem p hp := (h.started c (hc ▸ hmem) p hp).trans hclock
  begun w hmem hstage := (h.begun w (hw ▸ hmem) hstage).trans hclock
  kept w hmem keep hk c hcmem := h.kept w (hw ▸ hmem) keep hk c (hc ▸ hcmem)
  past f hf := (h.past f (hm ▸ hf)).trans hclock
  merged f hf c hcmem := h.merged f (hm ▸ hf) c (hc ▸ hcmem)

theorem asked (h : Watched id s) {c c' : Caller} {j : ℕ} (hj : s.callers[j]? = some c)
    (hc : s'.callers = replaceAt s.callers j [c']) (ha : Asked s c c' s') : Watched id s' := by
  have hmem := List.mem_of_getElem? hj
  have hsplit : ∀ x ∈ s'.callers, x ∈ s.callers ∨ x = c' := fun x hx =>
    (mem_replaceAt (hc ▸ hx)).imp_right List.mem_singleton.mp
  -- a fetch that covered the calls still does: the new terms are old, or later than the fetch
  have hcovers :
      ∀ fetchAt keep, fetchAt ≤ s.clock → Covers id s fetchAt keep → Covers id s' fetchAt keep := by
    intro fetchAt keep hpast hcov x hx p hp hid hlt
    rcases hsplit x hx with hx | rfl
    · exact hcov x hx p hp hid hlt
    · rcases ha.terms p hp with hp | hp
      · exact hcov c hmem p hp (ha.ids ▸ hid) hlt
      · omega
  refine ⟨fun x hx hid hstage => ?_, fun x hx p hp => ?_, fun w hw hstage => ?_,
    fun w hw keep hk => ?_, fun f hf => ?_, fun f hf => ?_⟩
  · rcases hsplit x hx with hx | rfl
    · exact ha.interest (h.interest x hx hid hstage)
    · rw [ha.ids] at hid
      by_cases hb : c.stage = .begun
      · exact ha.registered hb id hid
      · exact ha.interest (h.interest c hmem hid hb)
  · rcases hsplit x hx with hx | rfl
    · exact (h.started x hx p hp).trans ha.clock
    · rcases ha.terms p hp with hp | hp
      · exact (h.started c hmem p hp).trans ha.clock
      · exact hp.le.trans ha.clock
  · rcases ha.workers w hw with hw | hw
    · exact (h.begun w hw hstage).trans ha.clock
    · exact absurd hw hstage
  · rcases ha.workers w hw with hw | hw
    · have hne : w.stage ≠ .starting := fun hs => by simp [hs, FetchStage.keep?] at hk
      exact hcovers _ _ (h.begun w hw hne) (h.kept w hw keep hk)
    · simp [hw, FetchStage.keep?] at hk
  · exact (h.past f (ha.merged ▸ hf)).trans ha.clock
  · rw [ha.merged] at hf
    exact hcovers _ _ (h.past f hf) (h.merged f hf)

theorem fetched (h : Watched id s) {w : Worker} (hw : w ∈ s.workers) (hf : Fetched s w s')
    (hkeep : id ∈ s.src.interest → id ∈ s'.src.interest) : Watched id s' := by
  have hcovers : ∀ fetchAt keep, Covers id s fetchAt keep → Covers id s' fetchAt keep :=
    fun fetchAt keep hcov c hc => hcov c (hf.callers ▸ hc)
  refine ⟨fun c hc hid hstage => hkeep (h.interest c (hf.callers ▸ hc) hid hstage),
    fun c hc p hp => hf.clock ▸ h.started c (hf.callers ▸ hc) p hp, fun x hx hstage => ?_,
    fun x hx keep hk => ?_, fun f hmem => ?_, fun f hmem => ?_⟩
  · rw [hf.clock]
    rcases hf.workers x hx with hx | ⟨hx, -⟩ | ⟨hne, hx, -⟩
    · exact h.begun x hx hstage
    · exact hx.le
    · exact hx ▸ h.begun w hw hne
  · rcases hf.workers x hx with hx | ⟨-, hnone⟩ | ⟨hne, hat, hx⟩
    · exact hcovers _ _ (h.kept x hx keep hk)
    · rw [hnone] at hk
      cases hk
    · rw [hat]
      rcases hx keep hk with hold | rfl
      · exact hcovers _ _ (h.kept w hw keep hold)
      · intro c hc p hp hid _
        refine h.interest c (hf.callers ▸ hc) hid fun hb => ?_
        simp [hb, AskStage.terms?] at hp
  · rw [hf.clock]
    rcases hf.merged with hm | ⟨hne, keep, -, hm⟩
    · exact h.past f (hm ▸ hmem)
    · rw [hm, List.mem_append, List.mem_singleton] at hmem
      rcases hmem with hmem | rfl
      · exact h.past f hmem
      · exact h.begun w hw hne
  · rcases hf.merged with hm | ⟨-, keep, hk, hm⟩
    · exact hcovers _ _ (h.merged f (hm ▸ hmem))
    · rw [hm, List.mem_append, List.mem_singleton] at hmem
      rcases hmem with hmem | rfl
      · exact hcovers _ _ (h.merged f hmem)
      · exact hcovers _ _ (h.kept w hw keep hk)

theorem step (h : Watched id s) {a : Act} (hs : s.step o a = some s')
    (hkeep : id ∈ s.src.interest → id ∈ s'.src.interest) : Watched id s' := by
  have hask : ∀ j a, (s.callers[j]?.bind fun c => s.ask o j c a) = some s' → Watched id s' := by
    intro j a ha
    obtain ⟨c, hj, ha⟩ := Option.bind_eq_some_iff.mp ha
    obtain ⟨c', hc, hasked⟩ := ask_asked ha
    exact h.asked hj hc hasked
  have hfetch : ∀ i a, (s.workers[i]?.bind fun w => s.fetch o i w a) = some s' → Watched id s' := by
    intro i a ha
    obtain ⟨w, hw, ha⟩ := Option.bind_eq_some_iff.mp ha
    exact h.fetched (List.mem_of_getElem? hw) (fetch_fetched ha) hkeep
  cases a with
  | tick clock =>
    simp only [State.step] at hs
    split at hs
    case isTrue hle => obtain rfl := Option.some.inj hs; exact h.world rfl rfl rfl hle hkeep
    case isFalse => cases hs
  | ask ids fresh =>
    simp only [State.step] at hs
    split at hs
    · cases hs
    · obtain rfl := Option.some.inj hs
      have hcovers : ∀ fetchAt keep, Covers id s fetchAt keep →
          Covers id { s with callers := { ids, fresh, began := s.clock } :: s.callers }
            fetchAt keep := by
        intro fetchAt keep hcov c hc p hp
        rcases List.mem_cons.mp hc with rfl | hc
        · cases hp
        · exact hcov c hc p hp
      refine ⟨fun c hc hid hstage => ?_, fun c hc p hp => ?_, h.begun,
        fun w hw keep hk => hcovers _ _ (h.kept w hw keep hk), h.past,
        fun f hf => hcovers _ _ (h.merged f hf)⟩
      · rcases List.mem_cons.mp hc with rfl | hc
        · exact absurd rfl hstage
        · exact h.interest c hc hid hstage
      · rcases List.mem_cons.mp hc with rfl | hc
        · cases hp
        · exact h.started c hc p hp
  | invalidate | forget | notePollInterval | shutdown =>
    obtain rfl := Option.some.inj hs
    exact h.world rfl rfl rfl le_rfl hkeep
  | register j => exact hask j _ hs
  | setOut j => exact hask j _ hs
  | check j => exact hask j _ hs
  | wake j => exact hask j _ hs
  | read j => exact hask j _ hs
  | begin i => exact hfetch i _ hs
  | count i => exact hfetch i _ hs
  | call i => exact hfetch i _ hs
  | «return» i => exact hfetch i _ hs
  | raise i => exact hfetch i _ hs
  | parse i => exact hfetch i _ hs
  | uncount i => exact hfetch i _ hs
  | finish i => exact hfetch i _ hs

end Watched

/-- The step does not drop the id from the source. -/
def KeepsId (o : Options) (id : ℕ) (s : State) (a : Act) : Prop :=
  ∀ s', s.step o a = some s' → id ∈ s.src.interest → id ∈ s'.src.interest

theorem watched (h : (system o).ReachableUnder (KeepsId o id) s) : Watched id s :=
  h.invariant (fun _ hs => hs ▸ watched_init o id) fun _ _ s' _ hI hkeeps hs =>
    hI.step hs (hkeeps s' hs)

/-- **A call that is fresh, or brings a new id, is answered after its ids were looked for.**  While
an id is not dropped, it passes the filter of every fetch that starts later than a call for it has
read the clock; and the answer of such a call comes after a fetch that started no earlier than
that.  Where that fetch started later, its payload was asked for the id; of one that started at the
very reading nothing is said. -/
theorem absence_checked (h : (system o).ReachableUnder (KeepsId o id) s) {c : Caller}
    (hc : c ∈ s.callers)
    (hid : id ∈ c.ids) {p : Terms} {rows : List JobStatus} {n upTo : ℕ}
    (hstage : c.stage = .answered p rows n upTo) :
    (∀ f ∈ s.merged, p.started < f.1 → id ∈ f.2) ∧
      (c.fresh = true ∨ c.wasNew = true → ∃ f ∈ s.merged.take upTo,
        c.began ≤ p.started ∧ p.started ≤ f.1 ∧ (p.started < f.1 → id ∈ f.2)) := by
  have hp : c.stage.terms? = some p := by rw [hstage]; rfl
  have hcovered : ∀ f ∈ s.merged, p.started < f.1 → id ∈ f.2 := fun f hf hlt =>
    (watched h).merged f hf c hc p hp hid hlt
  refine ⟨hcovered, fun hnew => ?_⟩
  have hok := (sighted h.reachable).callers c hc
  simp only [CallerOk, hstage] at hok
  obtain ⟨hset, -, hfetch⟩ := hok
  have hfresh : p.fresh = true := by rw [hset.fresh]; simpa using hnew
  have hmin : p.minAt = p.started := by rw [hset.minAt, hfresh, if_pos rfl]
  rcases hfetch with ⟨f, hf, hle⟩ | ⟨hcached, -⟩
  · exact ⟨f, hf, hset.began, hmin ▸ hle, hcovered f (List.mem_of_mem_take hf)⟩
  · rw [hfresh] at hcached
    cases hcached

/-- The test for `KeepsId`. -/
def keepsId (o : Options) (id : ℕ) (s : State) (a : Act) : Bool :=
  (s.step o a).all fun s' => decide (id ∈ s.src.interest → id ∈ s'.src.interest)

theorem keepsId_of_test {a : Act} (h : keepsId o id s a = true) : KeepsId o id s a := by
  intro s' hs
  rw [keepsId, hs] at h
  exact of_decide_eq_true h

/-- The fresh call of `joined`. -/
theorem absence_checked_joined :
    let o : Options := { failover := false, refreshMinS := none, waitTimeoutS := 5 * second }
    ∃ s c p, ∃ rows : List JobStatus, ∃ n upTo,
      (system o).runUnder (keepsId o 7) { src := o.source } joined = some s ∧
        s.callers[0]? = some c ∧
      c.stage = .answered p rows n upTo ∧ rows = [] ∧
      ∃ f ∈ s.merged.take upTo, c.began ≤ p.started ∧ p.started ≤ f.1 ∧
          (p.started < f.1 → 7 ∈ f.2) := by
  intro o
  have hrun : ((system o).runUnder (keepsId o 7) { src := o.source } joined).bind (fun s =>
      s.callers[0]?.bind fun c =>
      match c.stage with
      | .answered _ rows _ _ => if 7 ∈ c.ids ∧ c.fresh = true ∧ rows = [] then some () else none
      | _ => none) = some () := by decide +kernel
  obtain ⟨s, hs, hrest⟩ := Option.bind_eq_some_iff.mp hrun
  obtain ⟨c, hc, hrest⟩ := Option.bind_eq_some_iff.mp hrest
  split at hrest
  case h_1 p rows n upTo hstage =>
    obtain ⟨⟨hid, hfresh, hrows⟩, -⟩ := Option.ite_none_right_eq_some.mp hrest
    have hreach : (system o).ReachableUnder (KeepsId o 7) s :=
      System.reachableUnder_of_runUnder (fun _ _ => keepsId_of_test) (.init rfl) hs
    exact ⟨s, c, p, rows, n, upTo, hs, hc, hstage, hrows,
      (absence_checked hreach (List.mem_of_getElem? hc) hid hstage).2 (.inl hfresh)⟩
  case h_2 => cases hrest

/-- The id 7 is registered while the ledger is new, and asked for once more before the fetch for it
ends. -/
def cachedTwice : List Act :=
  let at₀ : Reads := ⟨0, 0, 0, 0⟩
  [.ask [5] false, .register 0, .setOut 0, .check 0 at₀ true, .begin 0 0, .count 0,
    .call 0, .«return» 0, .parse 0 (some []), .uncount 0, .finish 0, .ask [7] false, .register 0,
    .ask [7] false, .register 0,
    .setOut 0, .check 0 at₀ true, .read 0]

/-- The second call is answered at once, and no fetch has looked for the id. -/
theorem not_checked_cached :
    let o : Options := { failover := false, refreshMinS := some second, waitTimeoutS := 5 * second }
    ∃ s c, ∃ p : Terms, ∃ n upTo, (system o).run { src := o.source } cachedTwice = some s ∧
      s.callers[0]? = some c ∧ c.ids = [7] ∧ c.stage = .answered p [] n upTo ∧
          ∀ f ∈ s.merged, 7 ∉ f.2 := by
  intro o
  have hrun : ((system o).run { src := o.source } cachedTwice).bind (fun s =>
      s.callers[0]?.bind fun c =>
      match c.stage with
      | .answered _ rows _ _ =>
        if c.ids = [7] ∧ rows = [] ∧ ∀ f ∈ s.merged, 7 ∉ f.2 then some () else none
      | _ => none) = some () := by decide +kernel
  obtain ⟨s, hs, hrest⟩ := Option.bind_eq_some_iff.mp hrun
  obtain ⟨c, hc, hrest⟩ := Option.bind_eq_some_iff.mp hrest
  split at hrest
  case h_1 p rows n upTo hstage =>
    obtain ⟨⟨hids, rfl, hmissing⟩, -⟩ := Option.ite_none_right_eq_some.mp hrest
    exact ⟨s, c, p, n, upTo, hs, hc, hids, hstage, hmissing⟩
  case h_2 => cases hrest

end Lsfmgr.Status
