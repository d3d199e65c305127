import Mathlib
import Lsfmgr.Submit.Units

/-!
# Submit/Phases — what the record of a unit looks like

A unit that is not counted yet is in one of four phases, and each phase says what its record can
look like: it has the generation the cycle's reset gave it and no job id, or it is gone.  A counted
unit leaves no record of its generation in `SUBMITTING` or `RETRY_WAIT`.  `exec_advanced` says that
one instruction moves its units from phase to phase accordingly, and what it may write while it
does.
-/

namespace Lsfmgr.Submit

open Machinery

/-- Where a unit of a cycle stands. -/
inductive Phase
  /-- Before the reset. -/
  | unreset
  /-- Reset, and not started. -/
  | fresh
  /-- In a task. -/
  | live
  /-- Between two attempts. -/
  | waiting
  | settled
  deriving DecidableEq

/-- The record has the generation the cycle gave it, has no job id, and its state is as said; or it
is gone. -/
def Open (p : JobState → Prop) (gen : Option ℕ) (rec : Option JobRecord) : Prop :=
  ∃ g, gen = some g ∧ ∀ r, rec = some r → r.generation = g ∧ r.jobId = none ∧ p r.state

/-- A record of the cycle's generation is neither being submitted nor waiting for a retry. -/
def Settled (gen : Option ℕ) (rec : Option JobRecord) : Prop :=
  ∀ r, rec = some r → gen = some r.generation → r.state ≠ .submitting ∧ r.state ≠ .retryWait

/-- What a phase says of the record. -/
def Phase.Holds : Phase → Option ℕ → Option JobRecord → Prop
  | unreset => fun gen _ => gen = none
  | fresh => Open (· ≠ .retryWait)
  | live => Open fun _ => True
  | waiting => Open (· ≠ .submitting)
  | settled => Settled

theorem Open.mono {p q : JobState → Prop} {gen : Option ℕ} {rec : Option JobRecord}
    (h : Open p gen rec) (hpq : ∀ s, p s → q s) : Open q gen rec := by
  obtain ⟨g, hg, hr⟩ := h
  exact ⟨g, hg, fun r hrec => ⟨(hr r hrec).1, (hr r hrec).2.1, hpq _ (hr r hrec).2.2⟩⟩

theorem settled_of_none {rec : Option JobRecord} : Settled none rec := fun _ _ h => by cases h

theorem settled_of_gone {gen : Option ℕ} : Settled gen none := fun _ h => by cases h

theorem Open.gone {p q : JobState → Prop} {gen : Option ℕ} {rec : Option JobRecord}
    (h : Open p gen rec) : Open q gen none :=
  let ⟨g, hg, _⟩ := h
  ⟨g, hg, fun _ hr => by cases hr⟩

namespace Instr

/-- The units of an instruction, each with its phase. -/
def tokens (all : List Key) : Instr → List (Key × Phase)
  | enter k _ | toSubmitting k _ | slotWait k _ | slotHeld k _ | running k _ | succeeded k _
  | failed k _ _ | retryCheck k _ _ | toRetryWait k _ _ | toSubmitFailed k _ _ | cancelled k
  | crashed k _ => [(k, .live)]
  | schedule k _ | fired k _ | giveUp k _ | giveUpWrite k _ => [(k, .waiting)]
  | count ks _ _ | finishForced ks _ _ => ks.map fun k => (k, .settled)
  | gateFail ks todo _ _ =>
    ks.map fun k => (k, if k ∈ todo.map (·.jobKey) then .fresh else .settled)
  | register _ | newContext _ _ | startLaunch _ | preSubmitStart | preSubmitRun |
      preSubmitOk | launch
  | readBlocked | readPrevious _ | gateReject _ => all.map fun k => (k, .unreset)
  | reset todo _ _ launched _ skipped =>
    todo.map (fun ki => (ki.1, .unreset)) ++ launched.map (fun r => (r.jobKey, .fresh))
      ++ skipped.map fun k => (k, .unreset)
  | makeTasks launched | checkFinished launched | announce launched | fanOut launched =>
    launched.map fun r => (r.jobKey, .fresh)
  | retried _ | requestRetry _ | releaseSlot | leave _ | note _ | emitProgress _ | finishIfDone _
  | unregister | dropContext | onRetryRequested _ | fire _ => []

/-- The records an instruction carries from the reset. -/
def records : Instr → List JobRecord
  | reset _ _ _ launched _ _ | makeTasks launched | checkFinished launched | announce launched
  | fanOut launched => launched
  | gateFail _ todo _ _ => todo
  | _ => []

/-- The tokens of an instruction are its units. -/
theorem fst_tokens (all : List Key) (x : Instr) :
    ((x.tokens all).map Prod.fst : Multiset Key) = x.units all := by
  cases x <;> simp [tokens, units, Function.comp_def, ← Multiset.coe_add, add_assoc]

theorem units_of_tokens {all : List Key} {x : Instr} {p : Key × Phase} (h : p ∈ x.tokens all) :
    p.1 ∈ x.units all := by
  rw [← fst_tokens]
  exact Multiset.mem_coe.mpr (List.mem_map_of_mem h)

/-- **The units of an instruction are in their phases**, and the records it carries are those the
reset wrote. -/
structure Sound (js : String) (all : List Key) (gens : Key → Option ℕ)
    (jobs : Key → Option JobRecord) (x : Instr) : Prop where
  phases : ∀ p ∈ x.tokens all, p.2.Holds (gens p.1) (jobs p.1)
  records : ∀ r ∈ x.records, r.jobsetId = js ∧ gens r.jobKey = some r.generation ∧
    r.jobKey ∈ x.units all

/-- Only what is at the units of the instruction matters. -/
theorem Sound.congr {js : String} {all : List Key} {gens gens' : Key → Option ℕ}
    {jobs jobs' : Key → Option JobRecord} {x : Instr} (h : x.Sound js all gens jobs)
    (hg : ∀ k ∈ x.units all, gens' k = gens k) (hj : ∀ k ∈ x.units all, jobs' k = jobs k) :
    x.Sound js all gens' jobs' where
  phases p hp := by
    have hk := units_of_tokens hp
    rw [hg _ hk, hj _ hk]
    exact h.phases p hp
  records r hr := by
    obtain ⟨h₁, h₂, h₃⟩ := h.records r hr
    exact ⟨h₁, (hg _ h₃).trans h₂, h₃⟩

end Instr

/-- Code all of whose instructions are sound. -/
def SoundCode (js : String) (all : List Key) (gens : Key → Option ℕ)
    (jobs : Key → Option JobRecord) (code : List Instr) : Prop :=
  ∀ y ∈ code, y.Sound js all gens jobs

section Exec

variable {P : Params} {o : Oracle} {c : ℕ} {cyc : Cycle} {w : Shared} {x : Instr} {e : Effect}

/-- How an instruction may change the record of a key: not at all, by giving it a new generation, or
by writing to a record of the cycle's generation that has no job id. -/
def Moved (n m : ℕ) (gen : Option ℕ) (old new : Option JobRecord) : Prop :=
  new = old ∨ ∃ r', new = some r' ∧ (r'.generation = n ∧ n < m ∨
    ∃ r, old = some r ∧ r.jobId = none ∧ gen = some r.generation ∧ r'.generation = r.generation)

/-- **One instruction of a cycle**: what it writes, and that the code it calls for is sound
again. -/
structure Advanced (P : Params) (cyc : Cycle) (w : Shared) (x : Instr) (e : Effect) : Prop where
  nextGen : w.nextGen ≤ e.nextGen
  gens : e.cyc.ledger.gens = cyc.ledger.gens ∨ ∃ k ∈ x.units cyc.keys,
    cyc.ledger.gens.get? k = none ∧ e.cyc.ledger.gens = cyc.ledger.gens.set k w.nextGen ∧
    w.nextGen < e.nextGen
  jobs : ∀ k, e.store.job? P.jobsetId k = w.store.job? P.jobsetId k ∨ k ∈ x.units cyc.keys ∧
    Moved w.nextGen e.nextGen (cyc.ledger.gens.get? k) (w.store.job? P.jobsetId k)
      (e.store.job? P.jobsetId k)
  code : SoundCode P.jobsetId cyc.keys e.cyc.ledger.gens.get? (e.store.job? P.jobsetId) e.code
  spawned : ∀ code ∈ e.spawned,
    SoundCode P.jobsetId cyc.keys e.cyc.ledger.gens.get? (e.store.job? P.jobsetId) code
  pending : ∀ k ∈ e.cyc.pendingKeys, k ∈ cyc.pendingKeys ∨
    Phase.waiting.Holds (e.cyc.ledger.gens.get? k) (e.store.job? P.jobsetId k)
  counted : ∀ k ∈ e.cyc.ledger.counted, k ∈ cyc.ledger.counted ∨
    Phase.settled.Holds (e.cyc.ledger.gens.get? k) (e.store.job? P.jobsetId k)
  returned : ∀ p ∈ e.cyc.ledger.returned, p ∈ cyc.ledger.returned ∨
    .succeeded p.1 p.2 ∈ e.code

/-- The generations of the cycle afterwards: as before, or the next one at a key that had none. -/
theorem Advanced.gens_get (h : Advanced P cyc w x e) (k : Key) :
    e.cyc.ledger.gens.get? k = cyc.ledger.gens.get? k ∨ k ∈ x.units cyc.keys ∧
      cyc.ledger.gens.get? k = none ∧ e.cyc.ledger.gens.get? k = some w.nextGen ∧
      w.nextGen < e.nextGen := by
  rcases h.gens with heq | ⟨k', hk', hnone, heq, hlt⟩
  · exact .inl (by rw [heq])
  · by_cases hkk : k = k'
    · subst hkk
      exact .inr ⟨hk', hnone, by simp [heq], hlt⟩
    · exact .inl (by rw [heq, Dict.get?_set_of_ne _ _ hkk])

/-- Only one key can get the next generation. -/
theorem Advanced.gens_inj (h : Advanced P cyc w x e)
    (hlt : ∀ k g, cyc.ledger.gens.get? k = some g → g < w.nextGen) {k k' : Key}
    (hk : e.cyc.ledger.gens.get? k = some w.nextGen)
    (hk' : e.cyc.ledger.gens.get? k' = some w.nextGen) : k = k' := by
  rcases h.gens with heq | ⟨k₀, -, -, heq, -⟩
  · exact absurd (hlt k _ (heq ▸ hk)) (lt_irrefl _)
  · rw [heq, Dict.get?_set] at hk hk'
    split at hk
    case isTrue h₁ =>
      split at hk'
      case isTrue h₂ => exact h₁.trans h₂.symm
      case isFalse => exact absurd (hlt k' _ hk') (lt_irrefl _)
    case isFalse => exact absurd (hlt k _ hk) (lt_irrefl _)

/-- What leaves the records and the ledger of the cycle alone. -/
theorem Advanced.of_same (hs : e.store = w.store) (hg : e.cyc.ledger.gens = cyc.ledger.gens)
    (hn : e.nextGen = w.nextGen)
    (hcode : SoundCode P.jobsetId cyc.keys cyc.ledger.gens.get? (w.store.job? P.jobsetId) e.code)
    (hsp : ∀ code ∈ e.spawned,
      SoundCode P.jobsetId cyc.keys cyc.ledger.gens.get? (w.store.job? P.jobsetId) code)
    (hp : ∀ k ∈ e.cyc.pendingKeys, k ∈ cyc.pendingKeys ∨
      Phase.waiting.Holds (cyc.ledger.gens.get? k) (w.store.job? P.jobsetId k))
    (hc : ∀ k ∈ e.cyc.ledger.counted, k ∈ cyc.ledger.counted ∨
      Phase.settled.Holds (cyc.ledger.gens.get? k) (w.store.job? P.jobsetId k))
    (hr : ∀ p ∈ e.cyc.ledger.returned, p ∈ cyc.ledger.returned ∨ .succeeded p.1 p.2 ∈ e.code) :
    Advanced P cyc w x e where
  nextGen := hn.ge
  gens := .inl hg
  jobs k := .inl (by rw [hs])
  code := by rwa [hg, hs]
  spawned := by rwa [hg, hs]
  pending := by rwa [hg, hs]
  counted := by rwa [hg, hs]
  returned := hr

/-- What writes one record of an open unit. -/
theorem Advanced.of_wrote {k : Key} {old new : JobRecord} (hk : k ∈ x.units cyc.keys)
    (hw : w.store.Wrote P.jobsetId k (some new) e.store)
    (hold : w.store.job? P.jobsetId k = some old) (hid : old.jobId = none)
    (hgen : cyc.ledger.gens.get? k = some old.generation)
    (hnew : new.generation = old.generation) (hg : e.cyc.ledger.gens = cyc.ledger.gens)
    (hn : e.nextGen = w.nextGen)
    (hcode : SoundCode P.jobsetId cyc.keys cyc.ledger.gens.get? (e.store.job? P.jobsetId) e.code)
    (hsp : e.spawned = []) (hp : e.cyc.pendingRetries = cyc.pendingRetries)
    (hc : e.cyc.ledger.counted = cyc.ledger.counted)
    (hr : e.cyc.ledger.returned = cyc.ledger.returned) : Advanced P cyc w x e where
  nextGen := hn.ge
  gens := .inl hg
  jobs k' := by
    by_cases hkk : k' = k
    · subst hkk
      refine .inr ⟨hk, .inr ⟨new, by simp [hw.job?], .inr ⟨old, hold, hid, hgen, hnew⟩⟩⟩
    · exact .inl (by simp [hw.job?, hkk])
  code := by rwa [hg]
  spawned := by simp [hsp]
  pending k hk := .inl (by rwa [Cycle.pendingKeys, hp] at hk)
  counted k hk := .inl (hc ▸ hk)
  returned p hp := .inl (hr ▸ hp)

/-- The outcomes of a compare-and-set write at an open unit. -/
inductive OpenWrite (s : InMemoryStore) (js k : String) (now : Time) (st : JobState)
    (q : JobRecord → Bool) (fields : List Field) (p : JobState → Prop) (gen : Option ℕ) :
    Except StoreError (Option JobRecord × InMemoryStore) → Prop
  | gone {err : StoreError} : s.job? js k = none →
      OpenWrite s js k now st q fields p gen (.error err)
  | refused {old : JobRecord} : s.job? js k = some old → q old = false → gen = some old.generation →
      old.jobId = none → p old.state → OpenWrite s js k now st q fields p gen (.ok (none, s))
  | done {old : JobRecord} {s' : InMemoryStore} : s.job? js k = some old → q old = true →
      gen = some old.generation → old.jobId = none → p old.state →
      s.Wrote js k (some (old.rewrite now st old.revision fields)) s' →
      OpenWrite s js k now st q fields p gen
        (.ok (some (old.rewrite now st old.revision fields), s'))

theorem Open.transition {s : InMemoryStore} {js k : String} {fields : List Field}
    {p : JobState → Prop} {gen : Option ℕ} (ho : Open p gen (s.job? js k)) (hp : s.Placed)
    (now : Time) (st : JobState) (q : JobRecord → Bool) (hf : ∀ f ∈ fields, f.Plain) :
    OpenWrite s js k now st q fields p gen
      (s.transition now js k (some st) (Guard.of q) fields) := by
  obtain ⟨g, hg, hr⟩ := ho
  have hT := InMemoryStore.transition_cases js k now fields hp hf (some st) q
  generalize s.transition now js k (some st) (Guard.of q) fields = out at hT
  cases hT with
  | gone hgone => exact .gone hgone
  | refused hold hq =>
    obtain ⟨rfl, hid, hst⟩ := hr _ hold
    exact .refused hold hq hg hid hst
  | done hold hq hw =>
    obtain ⟨rfl, hid, hst⟩ := hr _ hold
    exact .done hold hq hg hid hst hw

theorem soundCode_nil {js : String} {all : List Key} {gens : Key → Option ℕ}
    {jobs : Key → Option JobRecord} : SoundCode js all gens jobs [] := fun _ h => by cases h

theorem soundCode_cons {js : String} {all : List Key} {gens : Key → Option ℕ}
    {jobs : Key → Option JobRecord} {x : Instr} {code : List Instr} :
    SoundCode js all gens jobs (x :: code)
      ↔ x.Sound js all gens jobs ∧ SoundCode js all gens jobs code := by
  simp [SoundCode]

theorem soundCode_append {js : String} {all : List Key} {gens : Key → Option ℕ}
    {jobs : Key → Option JobRecord} {a b : List Instr} :
    SoundCode js all gens jobs (a ++ b)
      ↔ SoundCode js all gens jobs a ∧ SoundCode js all gens jobs b := by
  simp only [SoundCode, List.mem_append, or_imp, forall_and]

/-- What holds no unit is sound. -/
theorem Instr.sound_of_idle {js : String} {all : List Key} {gens : Key → Option ℕ}
    {jobs : Key → Option JobRecord} {x : Instr} (ht : x.tokens all = []) (hr : x.records = []) :
    x.Sound js all gens jobs := ⟨by simp [ht], by simp [hr]⟩

/-- The notices of a transition hold no unit. -/
theorem soundCode_note {js : String} {all : List Key} {gens : Key → Option ℕ}
    {jobs : Key → Option JobRecord} (rs : List JobRecord) :
    SoundCode js all gens jobs (rs.flatMap fun r => [.note r, .emitProgress false]) := by
  intro y hy
  obtain ⟨r, -, hy⟩ := List.mem_flatMap.mp hy
  rcases List.mem_cons.mp hy with rfl | hy
  · exact Instr.sound_of_idle rfl rfl
  · obtain rfl := List.mem_singleton.mp hy
    exact Instr.sound_of_idle rfl rfl

/-- The one unit of an instruction of a task, of a timer or of an abort. -/
theorem Instr.Sound.single {js : String} {all : List Key} {gens : Key → Option ℕ}
    {jobs : Key → Option JobRecord} {k : Key} {ph : Phase} (hs : x.Sound js all gens jobs)
    (hx : x.tokens all = [(k, ph)]) : ph.Holds (gens k) (jobs k) :=
  hs.phases (k, ph) (by simp [hx])

theorem Instr.sound_single {js : String} {all : List Key} {gens : Key → Option ℕ}
    {jobs : Key → Option JobRecord} (k : Key) (ph : Phase) (hx : x.tokens all = [(k, ph)])
    (hr : x.records = []) (h : ph.Holds (gens k) (jobs k)) : x.Sound js all gens jobs :=
  ⟨by simpa [hx] using h, by simp [hr]⟩

/-- `_task_vanished` -/
theorem Advanced.vanished {k : Key} (hgone : w.store.job? P.jobsetId k = none) :
    Advanced P cyc w x (vanished cyc w k) := by
  refine .of_same rfl rfl rfl ?_ (by simp [Submit.vanished, Effect.pass]) (fun _ h => .inl h)
    (fun _ h => .inl h) (fun _ h => .inl h)
  refine soundCode_cons.mpr ⟨Instr.sound_single k .settled rfl rfl ?_, soundCode_nil⟩
  rw [hgone]
  exact settled_of_gone

/-- A count whose units have settled. -/
theorem soundCode_count {js : String} {all : List Key} {gens : Key → Option ℕ}
    {jobs : Key → Option JobRecord} {ks : List Key} {out : Outcome} {ch : List JobRecord}
    (h : ∀ k ∈ ks, Settled (gens k) (jobs k)) : SoundCode js all gens jobs [.count ks out ch] := by
  refine soundCode_cons.mpr ⟨⟨fun p hp => ?_, by simp [Instr.records]⟩, soundCode_nil⟩
  obtain ⟨k, hk, rfl⟩ := List.mem_map.mp hp
  exact h k hk

/-- A unit whose record has just been written. -/
theorem settled_of_state {gen : Option ℕ} {r : JobRecord}
    (h : r.state ≠ .submitting ∧ r.state ≠ .retryWait) : Settled gen (some r) := by
  rintro _ ⟨⟩ -
  exact h

theorem open_of_write {q : JobState → Prop} {gen : Option ℕ} {r : JobRecord}
    (hg : gen = some r.generation) (hid : r.jobId = none) (hq : q r.state) :
    Open q gen (some r) := by
  refine ⟨_, hg, ?_⟩
  rintro _ ⟨⟩
  exact ⟨rfl, hid, hq⟩

/-- **A compare-and-set write at an open unit**: it is enough that the code called for is sound in
each of its outcomes. -/
theorem Advanced.of_transition {k : Key} {st : JobState} {fields : List Field}
    {p : JobState → Prop} {gone : Effect} {ok : Option JobRecord → InMemoryStore → Effect}
    (hp : w.store.Placed) (hk : k ∈ x.units cyc.keys)
    (ho : Open p (cyc.ledger.gens.get? k) (w.store.job? P.jobsetId k)) (q : JobRecord → Bool)
    (hf : ∀ f ∈ fields, f.Plain)
    (hgen : ∀ r : JobRecord, (r.rewrite o.now st r.revision fields).generation = r.generation)
    (hok : ∀ r s, (ok r s).store = s ∧ (ok r s).cyc = cyc ∧ (ok r s).nextGen = w.nextGen ∧
      (ok r s).spawned = [])
    (hgone : w.store.job? P.jobsetId k = none → Advanced P cyc w x gone)
    (hrefused : ∀ r : JobRecord, q r = false → w.store.job? P.jobsetId k = some r →
      cyc.ledger.gens.get? k = some r.generation → r.jobId = none → p r.state →
      SoundCode P.jobsetId cyc.keys cyc.ledger.gens.get? (w.store.job? P.jobsetId)
        (ok none w.store).code)
    (hdone : ∀ (r : JobRecord) (s : InMemoryStore) (new : JobRecord),
      new = r.rewrite o.now st r.revision fields → r.jobId = none →
      cyc.ledger.gens.get? k = some new.generation → p r.state →
      s.job? P.jobsetId k = some new →
      (∀ k', k' ≠ k → s.job? P.jobsetId k' = w.store.job? P.jobsetId k') →
      SoundCode P.jobsetId cyc.keys cyc.ledger.gens.get? (s.job? P.jobsetId)
        (ok (some new) s).code) :
    Advanced P cyc w x
        (match w.store.transition o.now P.jobsetId k (some st) (Guard.of q) fields with
      | .error _ => gone
      | .ok (r, s) => ok r s) := by
  have hT := ho.transition hp o.now st q hf
  generalize w.store.transition o.now P.jobsetId k (some st) (Guard.of q) fields = out at hT
  cases hT with
  | gone h => exact hgone h
  | @refused old hold hq hg hid hst =>
    obtain ⟨h₁, h₂, h₃, h₄⟩ := hok none w.store
    exact .of_same h₁ (by rw [h₂]) h₃ (hrefused old hq hold hg hid hst) (by simp [h₄])
      (fun _ h => .inl (by rwa [h₂] at h)) (fun _ h => .inl (by rwa [h₂] at h))
      (fun _ h => .inl (by rwa [h₂] at h))
  | @done old s' hold hq hg hid hst hw =>
    obtain ⟨h₁, h₂, h₃, h₄⟩ := hok (some (old.rewrite o.now st old.revision fields)) s'
    refine .of_wrote hk (h₁.symm ▸ hw) hold hid hg (hgen old) (by rw [h₂]) h₃ ?_ h₄ (by rw [h₂])
      (by rw [h₂]) (by rw [h₂])
    rw [h₁]
    exact hdone old s' _ rfl hid (by rw [hgen old]; exact hg) hst (by simp [hw.job?])
      fun k' hne => by simp [hw.job?, hne]

/-- `_mark_cancelled` is one compare-and-set write. -/
theorem markCancelled_eq (hp : w.store.Placed) (k : Key) :
    markCancelled P o cyc w k
      = match w.store.transition o.now P.jobsetId k (some .cancelled)
          (Guard.of fun cur => cur.state = .submitting ∨ cur.state = .retryWait)
          [.failReason (some "CANCELLED"), .failMessage none, .retryCount 0, .killed true] with
        | .error _ => { Effect.pass cyc w with code := [.count [k] .cancelled []] }
        | .ok (r, store) =>
          { Effect.pass cyc w with store, code := [.count [k] .cancelled r.toList] } := by
  rw [markCancelled, InMemoryStore.transitionMany_singleton hp
    (by simp [Field.Plain, Field.badName?, Field.keyName?])]
  split <;> split <;> simp_all [Effect.pass]

/-- The instructions that write the record of one unit. -/
theorem exec_advanced_write (hp : w.store.Placed)
    (hs : x.Sound P.jobsetId cyc.keys cyc.ledger.gens.get? (w.store.job? P.jobsetId))
    (h : exec P o c cyc w x = some e) {k : Key}
    (hx : (∃ a, x = .toSubmitting k a) ∨ (∃ n, x = .succeeded k n) ∨
      (∃ a err, x = .toRetryWait k a err) ∨ (∃ a err, x = .toSubmitFailed k a err) ∨
      (∃ m, x = .crashed k m) ∨ x = .cancelled k ∨ ∃ r, x = .giveUpWrite k r) :
    Advanced P cyc w x e := by
  rcases hx with ⟨a, rfl⟩ | ⟨n, rfl⟩ | ⟨a, err, rfl⟩ | ⟨a, err, rfl⟩ | ⟨m, rfl⟩ | rfl | ⟨r, rfl⟩
  · -- to `SUBMITTING`: the unit stays in the task
    obtain rfl := Option.some.inj h
    have ho : Open (fun _ => True) _ _ := hs.single rfl
    rw [toSubmitting, InMemoryStore.transition_no_guard]
    refine .of_transition hp (by simp [Instr.units]) ho _ (by simp) (fun _ => rfl)
      (fun _ _ => ⟨rfl, rfl, rfl, rfl⟩) .vanished (fun _ hq => by cases hq)
      fun r s new hnew hid hg _ hj _ => ?_
    refine soundCode_append.mpr ⟨?_, soundCode_cons.mpr ⟨?_, soundCode_nil⟩⟩
    · split
      · exact soundCode_nil
      · exact soundCode_note _
    · refine Instr.sound_single k .live rfl rfl ?_
      rw [hj]
      exact open_of_write (q := fun _ => True) hg (hnew ▸ hid) trivial
  · -- the job id is recorded
    obtain rfl := Option.some.inj h
    have ho : Open (fun _ => True) _ _ := hs.single rfl
    rw [taskSucceeded, InMemoryStore.transition_no_guard]
    refine .of_transition hp (by simp [Instr.units]) ho _
      (by simp [Field.Plain, Field.badName?, Field.keyName?]) (fun _ => rfl)
      (fun _ _ => ⟨rfl, rfl, rfl, rfl⟩) .vanished (fun _ hq => by cases hq)
      fun r s new hnew _ _ _ hj _ => soundCode_count fun k' hk' => ?_
    obtain rfl := List.mem_singleton.mp hk'
    rw [hj]
    exact settled_of_state (by rw [hnew]; simp [JobRecord.rewrite, Field.put])
  · -- to `RETRY_WAIT`: the unit waits
    obtain rfl := Option.some.inj h
    have ho : Open (fun _ => True) _ _ := hs.single rfl
    rw [toRetryWait, InMemoryStore.transition_no_guard]
    refine .of_transition hp (by simp [Instr.units]) ho _
      (by simp [Field.Plain, Field.badName?, Field.keyName?]) (fun _ => rfl)
      (fun _ _ => ⟨rfl, rfl, rfl, rfl⟩) .vanished (fun _ hq => by cases hq)
      fun r s new hnew hid hg _ hj _ => ?_
    refine soundCode_append.mpr ⟨soundCode_append.mpr ⟨?_, soundCode_note _⟩, ?_⟩
    · exact soundCode_cons.mpr ⟨Instr.sound_of_idle rfl rfl, soundCode_nil⟩
    · refine soundCode_cons.mpr ⟨Instr.sound_single k .waiting rfl rfl ?_,
        soundCode_cons.mpr ⟨Instr.sound_of_idle rfl rfl, soundCode_nil⟩⟩
      rw [hj]
      exact open_of_write (q := (· ≠ .submitting)) hg (hnew ▸ hid)
        (by rw [hnew]; simp [JobRecord.rewrite, Field.put])
  · -- to `SUBMIT_FAILED`
    obtain rfl := Option.some.inj h
    have ho : Open (fun _ => True) _ _ := hs.single rfl
    rw [toSubmitFailed, InMemoryStore.transition_no_guard]
    refine .of_transition hp (by simp [Instr.units]) ho _
      (by simp [Field.Plain, Field.badName?, Field.keyName?]) (fun _ => rfl)
      (fun _ _ => ⟨rfl, rfl, rfl, rfl⟩) .vanished (fun _ hq => by cases hq)
      fun r s new hnew _ _ _ hj _ => soundCode_count fun k' hk' => ?_
    obtain rfl := List.mem_singleton.mp hk'
    rw [hj]
    exact settled_of_state (by rw [hnew]; simp [JobRecord.rewrite, Field.put])
  · -- a crash: an open unit has no job id, so the guard lets the write through
    obtain rfl := Option.some.inj h
    have ho : Open (fun _ => True) _ _ := hs.single rfl
    rw [taskCrashed]
    refine .of_transition hp (by simp [Instr.units]) ho _
      (by simp [Field.Plain, Field.badName?, Field.keyName?]) (fun _ => rfl)
      (fun _ _ => ⟨rfl, rfl, rfl, rfl⟩) (fun hgone => ?_)
      (fun _ hq _ _ hid _ => by simp [hid] at hq)
      fun r s new hnew _ _ _ hj _ => soundCode_count fun k' hk' => ?_
    · refine .of_same rfl rfl rfl (soundCode_count fun k' hk' => ?_) (by simp [Effect.pass])
        (fun _ h => .inl h) (fun _ h => .inl h) fun _ h => .inl h
      obtain rfl := List.mem_singleton.mp hk'
      rw [hgone]
      exact settled_of_gone
    · obtain rfl := List.mem_singleton.mp hk'
      rw [hj]
      exact settled_of_state (by rw [hnew]; simp [JobRecord.rewrite, Field.put])
  · -- a cancellation: refused where the record is not being submitted any more
    obtain rfl := Option.some.inj h
    have ho : Open (fun _ => True) _ _ := hs.single rfl
    rw [markCancelled_eq hp]
    refine .of_transition hp (by simp [Instr.units]) ho _
      (by simp [Field.Plain, Field.badName?, Field.keyName?]) (fun _ => rfl)
      (fun _ _ => ⟨rfl, rfl, rfl, rfl⟩) (fun hgone => ?_)
      (fun r hq hr _ _ _ => soundCode_count fun k' hk' => ?_)
      fun r s new hnew _ _ _ hj _ => soundCode_count fun k' hk' => ?_
    · refine .of_same rfl rfl rfl (soundCode_count fun k' hk' => ?_) (by simp [Effect.pass])
        (fun _ h => .inl h) (fun _ h => .inl h) fun _ h => .inl h
      obtain rfl := List.mem_singleton.mp hk'
      rw [hgone]
      exact settled_of_gone
    · obtain rfl := List.mem_singleton.mp hk'
      rw [hr]
      exact settled_of_state (by simpa using hq)
    · obtain rfl := List.mem_singleton.mp hk'
      rw [hj]
      exact settled_of_state (by rw [hnew]; simp [JobRecord.rewrite, Field.put])
  · -- a retry given up
    obtain rfl := Option.some.inj h
    have ho : Open (· ≠ .submitting) _ _ := hs.single rfl
    rw [finalizeRetryWrite, InMemoryStore.transition_no_guard]
    refine .of_transition hp (by simp [Instr.units]) ho _
      (by simp [Field.Plain, Field.badName?, Field.keyName?]) (fun _ => rfl)
      (fun _ _ => ⟨rfl, rfl, rfl, rfl⟩) .vanished (fun _ hq => by cases hq)
      fun r s new hnew _ _ _ hj _ => soundCode_count fun k' hk' => ?_
    obtain rfl := List.mem_singleton.mp hk'
    rw [hj]
    exact settled_of_state (by rw [hnew]; simp [JobRecord.rewrite, Field.put])

/-- One record of `_gate_fail` has been dealt with. -/
theorem Instr.Sound.gateFail_tail {js : String} {all : List Key} {gens : Key → Option ℕ}
    {jobs jobs' : Key → Option JobRecord} {ks : List Key} {r : JobRecord} {todo : List JobRecord}
    {m : String} {st st' : List JobRecord}
    (hs : (Instr.gateFail ks (r :: todo) m st).Sound js all gens jobs)
    (hne : ∀ k, k ≠ r.jobKey → jobs' k = jobs k)
    (hfresh : Open (· ≠ .retryWait) (gens r.jobKey) (jobs' r.jobKey))
    (hset : Settled (gens r.jobKey) (jobs' r.jobKey)) :
    (Instr.gateFail ks todo m st').Sound js all gens jobs' where
  phases p hp := by
    obtain ⟨k, hk, rfl⟩ := List.mem_map.mp hp
    by_cases hkr : k = r.jobKey
    · subst hkr
      dsimp only
      split
      · exact hfresh
      · exact hset
    · have := hs.phases _ (List.mem_map_of_mem hk)
      simp only [List.map_cons, List.mem_cons, hkr, false_or] at this
      rw [hne k hkr]
      exact this
  records r' hr' := hs.records r' (List.mem_cons_of_mem _ hr')

theorem gateFail_advanced (hp : w.store.Placed) {ks : List Key} {todo : List JobRecord}
    {m : String} {st : List JobRecord}
    (hs : (Instr.gateFail ks todo m st).Sound P.jobsetId cyc.keys cyc.ledger.gens.get?
      (w.store.job? P.jobsetId)) :
    Advanced P cyc w (.gateFail ks todo m st) (gateFail P o cyc w ks todo m st) := by
  cases todo with
  | nil =>
    refine .of_same rfl rfl rfl (soundCode_cons.mpr ⟨⟨fun p hp => ?_, by simp [Instr.records]⟩,
      soundCode_nil⟩) (by simp [gateFail, Effect.pass]) (fun _ h => .inl h) (fun _ h => .inl h)
      fun _ h => .inl h
    obtain ⟨k, hk, rfl⟩ := List.mem_map.mp hp
    simpa using hs.phases _ (List.mem_map_of_mem hk)
  | cons r todo =>
    obtain ⟨hjs, hgen, hunit⟩ := hs.records r List.mem_cons_self
    have ho : Open (· ≠ .retryWait) (cyc.ledger.gens.get? r.jobKey)
        (w.store.job? P.jobsetId r.jobKey) := by
      have hmem : r.jobKey ∈ ks := by simpa [Instr.units] using hunit
      have := hs.phases _ (List.mem_map_of_mem hmem)
      simp only [List.map_cons, List.mem_cons_self, if_true] at this
      exact this
    rw [gateFail]
    refine .of_transition hp hunit ho _ (by simp [Field.Plain, Field.badName?, Field.keyName?])
      (fun _ => rfl) (fun _ _ => ⟨rfl, rfl, rfl, rfl⟩) (fun hgone => ?_)
      (fun cur hq hcur hg hid hst => ?_) fun cur s new hnew hid hg hst hj hne => ?_
    · refine .of_same rfl rfl rfl (soundCode_cons.mpr ⟨?_, soundCode_nil⟩)
        (by simp [Effect.pass]) (fun _ h => .inl h) (fun _ h => .inl h) fun _ h => .inl h
      refine hs.gateFail_tail (fun _ _ => rfl) ho ?_
      rw [hgone]
      exact settled_of_gone
    · -- refused: the record is of this execution, so it is its state that differs
      refine soundCode_cons.mpr ⟨hs.gateFail_tail (fun _ _ => rfl) ho ?_, soundCode_nil⟩
      rw [hcur]
      refine settled_of_state ⟨fun hsub => ?_, hst⟩
      obtain ⟨h₁, h₂⟩ := hp.own _ _ _ hcur
      have hsame : cur.sameExecution r = true := JobRecord.sameExecution_iff.mpr
        ⟨h₁.trans hjs.symm, h₂, Option.some.inj (hg.symm.trans hgen)⟩
      simp [hsame, hsub] at hq
    · have hstate : new.state = .submitFailed := by
        rw [hnew]; simp [JobRecord.rewrite, Field.put]
      refine soundCode_cons.mpr ⟨hs.gateFail_tail hne ?_ ?_, soundCode_nil⟩
      · rw [hj]
        exact open_of_write (q := (· ≠ .retryWait)) hg (hnew ▸ hid) (by simp [hstate])
      · rw [hj]
        exact settled_of_state (by simp [hstate])

/-- One key of the reset that is not written any more: its record is as it was, and it has no
generation of this cycle. -/
theorem Instr.Sound.reset_tail {js : String} {all : List Key} {gens : Key → Option ℕ}
    {jobs : Key → Option JobRecord} {k : Key} {item : List String}
    {todo : List (Key × List String)} {b : Finset Key} {prev : Dict Key JobRecord}
    {l : List JobRecord} {st : List ℕ} {sk : List Key}
    (hs : (Instr.reset ((k, item) :: todo) b prev l st sk).Sound js all gens jobs) :
    gens k = none ∧ (Instr.reset todo b prev l st sk).Sound js all gens jobs ∧
      (Instr.reset todo b prev l st (sk ++ [k])).Sound js all gens jobs := by
  have hk : gens k = none := hs.phases (k, .unreset) (by simp [Instr.tokens])
  have htail : ∀ p ∈ (Instr.reset todo b prev l st sk).tokens all,
      p.2.Holds (gens p.1) (jobs p.1) := fun p hp => hs.phases p (by
    simp only [Instr.tokens, List.map_cons, List.cons_append]
    exact List.mem_cons_of_mem _ hp)
  refine ⟨hk, ⟨htail, fun r hr => ?_⟩, ⟨fun p hp => ?_, fun r hr => ?_⟩⟩
  · obtain ⟨h₁, h₂, -⟩ := hs.records r hr
    refine ⟨h₁, h₂, ?_⟩
    simp only [Instr.units, Multiset.mem_add, Multiset.mem_coe]
    exact .inl (.inr (List.mem_map_of_mem hr))
  · simp only [Instr.tokens, List.map_append, List.map_cons, List.map_nil, ← List.append_assoc]
      at hp
    rcases List.mem_append.mp hp with hp | hp
    · exact htail p hp
    · obtain rfl := List.mem_singleton.mp hp
      exact hk
  · obtain ⟨h₁, h₂, -⟩ := hs.records r hr
    refine ⟨h₁, h₂, ?_⟩
    simp only [Instr.units, Multiset.mem_add, Multiset.mem_coe]
    exact .inl (.inr (List.mem_map_of_mem hr))

/-- One key has been reset: its record is fresh, and the others are as they were. -/
theorem reset_done_advanced (hp : w.store.Placed) {k : Key} {item : List String}
    {todo : List (Key × List String)} {b : Finset Key} {prev : Dict Key JobRecord}
    {l : List JobRecord} {st st' : List ℕ} {sk : List Key}
    (hs : (Instr.reset ((k, item) :: todo) b prev l st sk).Sound P.jobsetId cyc.keys
      cyc.ledger.gens.get? (w.store.job? P.jobsetId))
    (hnd : ((Instr.reset ((k, item) :: todo) b prev l st sk).units cyc.keys).Nodup)
    {old new : JobRecord} {store' : InMemoryStore} (hold : w.store.job? P.jobsetId k = some old)
    (hnew : new = old.rewrite o.now .submitting old.revision
      (resetFields w.nextGen (P.join item)))
    (hw : w.store.Wrote P.jobsetId k (some new) store') :
    Advanced P cyc w (.reset ((k, item) :: todo) b prev l st sk)
      { Effect.pass cyc w with
        store := store'
        nextGen := w.nextGen + 1
        cyc := { cyc with ledger := { cyc.ledger with
          gens := cyc.ledger.gens.set k w.nextGen } }
        code := [.reset todo b prev (l ++ (some new).toList) st' sk] } := by
  obtain ⟨hk, htail, -⟩ := hs.reset_tail
  have hunits : (Instr.reset ((k, item) :: todo) b prev l st sk).units cyc.keys
      = k ::ₘ (Instr.reset todo b prev l st sk).units cyc.keys := by
    simp [Instr.units, ← Multiset.cons_coe, Multiset.cons_add]
  rw [hunits, Multiset.nodup_cons] at hnd
  have hgens : ∀ k', (cyc.ledger.gens.set k w.nextGen).get? k'
      = if k' = k then some w.nextGen else cyc.ledger.gens.get? k' :=
    fun k' => Dict.get?_set _ _ _ _
  have hkey : new.jobKey = k ∧ new.jobsetId = P.jobsetId ∧ new.generation = w.nextGen ∧
      new.jobId = none ∧ new.state = .submitting := by
    obtain ⟨h₁, h₂⟩ := hp.own _ _ _ hold
    rw [hnew]
    exact ⟨h₂, h₁, rfl, rfl, rfl⟩
  obtain ⟨hnk, hnjs, hng, hnid, hnst⟩ := hkey
  have hrest : (Instr.reset todo b prev l st sk).Sound P.jobsetId cyc.keys
      (cyc.ledger.gens.set k w.nextGen).get? (store'.job? P.jobsetId) := by
    refine htail.congr (fun k' hk' => ?_) (fun k' hk' => ?_)
    · have hne : k' ≠ k := fun heq => hnd.1 (heq ▸ hk')
      rw [hgens, if_neg hne]
    · have hne : k' ≠ k := fun heq => hnd.1 (heq ▸ hk')
      rw [hw.job?, if_neg (fun h => hne h.2)]
  refine ⟨Nat.le_succ _, .inr ⟨k, ?_, hk, rfl, Nat.lt_succ_self _⟩, fun k' => ?_, ?_,
    by simp [Effect.pass], fun k' h => .inl h, fun k' h => .inl h, fun p h => .inl h⟩
  · rw [hunits]
    exact Multiset.mem_cons_self _ _
  · by_cases heq : k' = k
    · subst heq
      exact .inr ⟨by rw [hunits]; exact Multiset.mem_cons_self _ _, .inr ⟨new,
        by simp [hw.job?], .inl ⟨hng, Nat.lt_succ_self _⟩⟩⟩
    · exact .inl (by simp [hw.job?, heq])
  · refine soundCode_cons.mpr ⟨⟨fun p hp' => ?_, fun r hr => ?_⟩, soundCode_nil⟩
    · simp only [Instr.tokens, Option.toList_some, List.map_append, List.map_cons, List.map_nil,
        List.mem_append, List.mem_singleton] at hp'
      have hold' := hrest.phases p
      simp only [Instr.tokens, List.mem_append] at hold'
      rcases hp' with (hp' | hp' | rfl) | hp'
      · exact hold' (.inl (.inl hp'))
      · exact hold' (.inl (.inr hp'))
      · rw [hnk, hgens, if_pos rfl, hw.job?, if_pos ⟨rfl, rfl⟩]
        exact open_of_write (q := (· ≠ .retryWait)) (by rw [hng]) hnid (by simp [hnst])
      · exact hold' (.inr hp')
    · have hmem : r.jobKey ∈ (Instr.reset todo b prev (l ++ [new]) st' sk).units cyc.keys := by
        simp only [Instr.units, Multiset.mem_add, Multiset.mem_coe]
        exact .inl (.inr (List.mem_map_of_mem hr))
      rcases List.mem_append.mp hr with hr | hr
      · obtain ⟨h₁, h₂, -⟩ := hrest.records r hr
        exact ⟨h₁, h₂, hmem⟩
      · obtain rfl := List.mem_singleton.mp hr
        exact ⟨hnjs, by rw [hnk, hgens, if_pos rfl, hng], hmem⟩

theorem resetRecords_advanced (hp : w.store.Placed) {todo : List (Key × List String)}
    {b : Finset Key} {prev : Dict Key JobRecord} {l : List JobRecord} {st : List ℕ}
    {sk : List Key}
    (hs : (Instr.reset todo b prev l st sk).Sound P.jobsetId cyc.keys cyc.ledger.gens.get?
      (w.store.job? P.jobsetId))
    (hnd : ((Instr.reset todo b prev l st sk).units cyc.keys).Nodup) :
    Advanced P cyc w (.reset todo b prev l st sk) (resetRecords P o cyc w todo b prev l st sk) := by
  cases todo with
  | nil =>
    refine .of_same rfl rfl rfl (soundCode_append.mpr ⟨?_, soundCode_cons.mpr
      ⟨⟨fun p hp => ?_, fun r hr => ?_⟩, soundCode_nil⟩⟩) (by simp [resetRecords, Effect.pass])
      (fun _ h => .inl h) (fun _ h => .inl h) fun _ h => .inl h
    · split
      · exact soundCode_nil
      · refine soundCode_count fun k hk => ?_
        have : cyc.ledger.gens.get? k = none :=
          hs.phases (k, .unreset) (by simp [Instr.tokens, hk])
        rw [this]
        exact settled_of_none
    · exact hs.phases p
        (by simp only [Instr.tokens, List.map_nil]; simp only [Instr.tokens] at hp; simp [hp])
    · obtain ⟨h₁, h₂, -⟩ := hs.records r hr
      exact ⟨h₁, h₂, Multiset.mem_coe.mpr (List.mem_map_of_mem hr)⟩
  | cons ki todo =>
    obtain ⟨k, item⟩ := ki
    obtain ⟨hk, htail, hskip⟩ := hs.reset_tail
    have hcancel : SoundCode P.jobsetId cyc.keys cyc.ledger.gens.get? (w.store.job? P.jobsetId)
        [.count [k] .cancelled [], .reset todo b prev l st sk] := by
      refine soundCode_append (a := [_]).mpr ⟨soundCode_count fun k' hk' => ?_,
        soundCode_cons.mpr ⟨htail, soundCode_nil⟩⟩
      obtain rfl := List.mem_singleton.mp hk'
      rw [hk]
      exact settled_of_none
    rw [resetRecords]
    split
    case isTrue =>
      exact .of_same rfl rfl rfl (soundCode_cons.mpr ⟨hskip, soundCode_nil⟩)
        (by simp [Effect.pass]) (fun _ h => .inl h) (fun _ h => .inl h) fun _ h => .inl h
    case isFalse =>
      split
      case h_1 =>
        exact .of_same rfl rfl rfl hcancel (by simp [Effect.pass]) (fun _ h => .inl h)
          (fun _ h => .inl h) fun _ h => .inl h
      case h_2 =>
        rw [InMemoryStore.transition_no_guard]
        have hT := InMemoryStore.transition_cases P.jobsetId k o.now
          (resetFields w.nextGen (P.join item)) hp
          (by simp [resetFields, Field.Plain, Field.badName?, Field.keyName?])
          (some .submitting) fun _ => true
        generalize w.store.transition o.now P.jobsetId k (some .submitting)
          (Guard.of fun _ => true) (resetFields w.nextGen (P.join item)) = out at hT
        cases hT with
        | gone =>
          exact .of_same rfl rfl rfl hcancel (by simp [Effect.pass]) (fun _ h => .inl h)
            (fun _ h => .inl h) fun _ h => .inl h
        | refused _ hfalse => cases hfalse
        | @done old store' hold _ hw => exact reset_done_advanced hp hs hnd hold rfl hw

/-- An instruction that leaves the records and the ledgers alone, and calls for sound code. -/
theorem Advanced.of_pass (hs : e.store = w.store) (hn : e.nextGen = w.nextGen)
    (hl : e.cyc.ledger = cyc.ledger) (hp : e.cyc.pendingRetries = cyc.pendingRetries)
    (hcode : SoundCode P.jobsetId cyc.keys cyc.ledger.gens.get? (w.store.job? P.jobsetId) e.code)
    (hsp : ∀ code ∈ e.spawned,
      SoundCode P.jobsetId cyc.keys cyc.ledger.gens.get? (w.store.job? P.jobsetId) code) :
    Advanced P cyc w x e :=
  .of_same hs (by rw [hl]) hn hcode hsp (fun k hk => .inl (by rwa [Cycle.pendingKeys, hp] at hk))
    (fun k hk => .inl (hl ▸ hk)) fun p h => .inl (hl ▸ h)

/-- The launch code before the reset: no key has a generation of this cycle yet. -/
theorem Instr.Sound.unreset {js : String} {all : List Key} {gens : Key → Option ℕ}
    {jobs : Key → Option JobRecord} (hs : x.Sound js all gens jobs)
    (hx : x.tokens all = all.map fun k => (k, .unreset)) : ∀ k ∈ all, gens k = none := fun k hk =>
  hs.phases (k, .unreset) (by rw [hx]; exact List.mem_map_of_mem hk)

/-- **What one instruction does to the phases of its units.** -/
theorem exec_advanced (hp : w.store.Placed)
    (hs : x.Sound P.jobsetId cyc.keys cyc.ledger.gens.get? (w.store.job? P.jobsetId))
    (hnd : (x.units cyc.keys).Nodup)
    (hpend : ∀ k ∈ cyc.pendingKeys,
      Phase.waiting.Holds (cyc.ledger.gens.get? k) (w.store.job? P.jobsetId k))
    (h : exec P o c cyc w x = some e) : Advanced P cyc w x e := by
  have live {k : Key} {y : Instr} (hy : y.tokens cyc.keys = [(k, .live)]) (hr : y.records = [])
      (ho : Phase.live.Holds (cyc.ledger.gens.get? k) (w.store.job? P.jobsetId k)) :
      SoundCode P.jobsetId cyc.keys cyc.ledger.gens.get? (w.store.job? P.jobsetId) [y] :=
    soundCode_cons.mpr ⟨Instr.sound_single _ _ hy hr ho, soundCode_nil⟩
  have unreset {y : Instr} (hy : y.tokens cyc.keys = cyc.keys.map fun k => (k, .unreset))
      (hr : y.records = []) (hg : ∀ k ∈ cyc.keys, cyc.ledger.gens.get? k = none) :
      SoundCode P.jobsetId cyc.keys cyc.ledger.gens.get? (w.store.job? P.jobsetId) [y] := by
    refine soundCode_cons.mpr ⟨⟨fun p hp => ?_, by simp [hr]⟩, soundCode_nil⟩
    rw [hy] at hp
    obtain ⟨k, hk, rfl⟩ := List.mem_map.mp hp
    exact hg k hk
  have idle {y : Instr} (hy : y.tokens cyc.keys = []) (hr : y.records = []) :
      SoundCode P.jobsetId cyc.keys cyc.ledger.gens.get? (w.store.job? P.jobsetId) [y] :=
    soundCode_cons.mpr ⟨Instr.sound_of_idle hy hr, soundCode_nil⟩
  cases x
  case toSubmitting k a => exact exec_advanced_write (k := k) hp hs h (.inl ⟨a, rfl⟩)
  case succeeded k n => exact exec_advanced_write (k := k) hp hs h (.inr (.inl ⟨n, rfl⟩))
  case toRetryWait k a err =>
    exact exec_advanced_write (k := k) hp hs h (.inr (.inr (.inl ⟨a, err, rfl⟩)))
  case toSubmitFailed k a err =>
    exact exec_advanced_write (k := k) hp hs h (.inr (.inr (.inr (.inl ⟨a, err, rfl⟩))))
  case crashed k m =>
    exact exec_advanced_write (k := k) hp hs h (.inr (.inr (.inr (.inr (.inl ⟨m, rfl⟩)))))
  case cancelled k =>
    exact exec_advanced_write (k := k) hp hs h (.inr (.inr (.inr (.inr (.inr (.inl rfl))))))
  case giveUpWrite k r =>
    exact exec_advanced_write (k := k) hp hs h (.inr (.inr (.inr (.inr (.inr (.inr ⟨r, rfl⟩))))))
  case reset => obtain rfl := Option.some.inj h; exact resetRecords_advanced hp hs hnd
  case gateFail => obtain rfl := Option.some.inj h; exact gateFail_advanced hp hs
  case enter k a =>
    obtain rfl := Option.some.inj h
    rw [enterInflight]
    split <;> exact .of_pass rfl rfl rfl rfl (live rfl rfl (hs.single rfl)) (by simp [Effect.pass])
  case slotWait k a =>
    simp only [exec, slotWait] at h
    split at h <;> split at h <;> cases h <;>
      exact .of_pass rfl rfl rfl rfl (live rfl rfl (hs.single rfl)) (by simp [Effect.pass])
  case slotHeld k a =>
    obtain rfl := Option.some.inj h
    refine .of_pass rfl rfl rfl rfl ?_ (by simp [slotHeld, Effect.pass])
    rw [slotHeld]
    split
    · exact soundCode_append (a := [_]).mpr ⟨live rfl rfl (hs.single rfl), idle rfl rfl⟩
    · exact live rfl rfl (hs.single rfl)
  case running k a =>
    obtain rfl := Option.some.inj h
    rw [runSubmit]
    split
    · refine .of_same rfl rfl rfl (soundCode_append (a := [_]).mpr
        ⟨live rfl rfl (hs.single rfl), idle rfl rfl⟩) (by simp [Effect.pass]) (fun _ h => .inl h)
        (fun _ h => .inl h) fun p hp => ?_
      rcases List.mem_append.mp hp with hp | hp
      · exact .inl hp
      · obtain rfl := List.mem_singleton.mp hp
        exact .inr List.mem_cons_self
    · exact .of_pass rfl rfl rfl rfl (soundCode_append (a := [_]).mpr
        ⟨live rfl rfl (hs.single rfl), idle rfl rfl⟩) (by simp [Effect.pass])
    · exact .of_pass rfl rfl rfl rfl (soundCode_append (a := [_]).mpr
        ⟨idle rfl rfl, live rfl rfl (hs.single rfl)⟩) (by simp [Effect.pass])
  case failed k a err =>
    obtain rfl := Option.some.inj h
    rw [taskFailed]
    refine .of_pass rfl rfl rfl rfl ?_ (by simp [Effect.pass])
    split <;> exact live rfl rfl (hs.single rfl)
  case retryCheck k a err =>
    obtain rfl := Option.some.inj h
    rw [retryCheck]
    refine .of_pass rfl rfl rfl rfl ?_ (by simp [Effect.pass])
    split <;> exact live rfl rfl (hs.single rfl)
  case schedule k a =>
    obtain rfl := Option.some.inj h
    refine .of_same rfl rfl rfl soundCode_nil (by simp [scheduleRetry, Effect.pass])
      (fun k' hk' => ?_) (fun _ h => .inl h) fun _ h => .inl h
    rcases Dict.mem_keys_set.mp (Cycle.mem_pendingKeys.mp hk') with rfl | hk'
    · exact .inr (hs.single rfl)
    · exact .inl hk'
  case count ks out ch =>
    obtain rfl := Option.some.inj h
    rw [count]
    split
    · exact .of_pass rfl rfl rfl rfl soundCode_nil (by simp [Effect.pass])
    · refine .of_same rfl (by cases out <;> rfl) rfl (soundCode_append (a := [_]).mpr
        ⟨idle rfl rfl, idle rfl rfl⟩) (by simp [Effect.pass])
        (fun k hk => .inl (by cases out <;> exact hk)) (fun k hk => ?_)
        fun p hp => .inl (by cases out <;> exact hp)
      have hk' : k ∈ cyc.ledger.counted ++ ks := by cases out <;> exact hk
      exact (List.mem_append.mp hk').imp_right fun hk =>
        hs.phases (k, .settled) (List.mem_map_of_mem hk)
  case finishForced ks f em =>
    obtain rfl := Option.some.inj h
    rw [finishForced]
    split
    · exact .of_pass rfl rfl rfl rfl (soundCode_append (a := [_]).mpr ⟨idle rfl rfl, idle rfl rfl⟩)
        (by simp [Effect.pass])
    · refine .of_same rfl (by cases f <;> rfl) rfl (soundCode_append (a := [_]).mpr
        ⟨idle rfl rfl, idle rfl rfl⟩) (by simp [Effect.pass])
        (fun k hk => .inl (by cases f <;> exact hk)) (fun k hk => ?_)
        fun p hp => .inl (by cases f <;> exact hp)
      have hk' : k ∈ cyc.ledger.counted ++ ks := by cases f <;> exact hk
      exact (List.mem_append.mp hk').imp_right fun hk =>
        hs.phases (k, .settled) (List.mem_map_of_mem hk)
  case fire k =>
    obtain rfl := Option.some.inj h
    rw [fire]
    split
    case h_1 => exact .of_pass rfl rfl rfl rfl soundCode_nil (by simp [Effect.pass])
    case h_2 entry cyc' hpop =>
      obtain ⟨hkeys, -, hled, -⟩ := Cycle.popRetry_spec hpop
      refine .of_same rfl (by simp [Effect.pass, hled]) rfl (soundCode_cons.mpr
        ⟨Instr.sound_single k .waiting rfl rfl (hpend k ?_), soundCode_nil⟩)
        (by simp [Effect.pass]) (fun k' hk' => .inl ?_) (fun k' hk' => .inl ?_) fun p hp => .inl ?_
      · rw [hkeys]
        simp
      · rw [hkeys]
        exact Multiset.mem_add.mpr (.inr hk')
      · simpa [Effect.pass, hled] using hk'
      · simpa [Effect.pass, hled] using hp
  case fired k a =>
    obtain rfl := Option.some.inj h
    have ho : Open (· ≠ .submitting) _ _ := hs.single rfl
    rw [fired]
    split
    · exact .of_pass rfl rfl rfl rfl (soundCode_cons.mpr
        ⟨Instr.sound_single k .waiting rfl rfl ho, soundCode_nil⟩) (by simp [Effect.pass])
    · refine .of_pass rfl rfl rfl rfl soundCode_nil fun code hcode => ?_
      obtain rfl := List.mem_singleton.mp hcode
      exact soundCode_append (a := [_]).mpr
        ⟨live rfl rfl (ho.mono fun _ _ => trivial), idle rfl rfl⟩
  case giveUp k reason =>
    obtain rfl := Option.some.inj h
    have ho : Open (· ≠ .submitting) _ _ := hs.single rfl
    rw [finalizeRetry, InMemoryStore.getJob]
    rcases hj : w.store.job? P.jobsetId k with _ | r
    · exact .vanished hj
    · dsimp only
      refine .of_pass rfl rfl rfl rfl ?_ (by simp [Effect.pass])
      split
      case isTrue =>
        exact soundCode_cons.mpr ⟨Instr.sound_single k .waiting rfl rfl ho, soundCode_nil⟩
      case isFalse hst =>
        refine soundCode_count fun k' hk' => ?_
        obtain rfl := List.mem_singleton.mp hk'
        obtain ⟨g, -, hr⟩ := ho
        rw [hj]
        exact settled_of_state ⟨(hr r hj).2.2, hst⟩
  case makeTasks l =>
    obtain rfl := Option.some.inj h
    rw [makeTasks]
    split
    · refine .of_pass rfl rfl rfl rfl (soundCode_cons.mpr ⟨⟨fun p hp => ?_, hs.records⟩,
        soundCode_nil⟩) (by simp [Effect.pass])
      obtain ⟨k, hk, rfl⟩ := List.mem_map.mp hp
      rw [if_pos hk]
      obtain ⟨r, hr, rfl⟩ := List.mem_map.mp hk
      exact hs.phases (r.jobKey, .fresh) (List.mem_map_of_mem hr)
    · exact .of_pass rfl rfl rfl rfl (soundCode_cons.mpr ⟨⟨hs.phases, hs.records⟩, soundCode_nil⟩)
        (by simp [Effect.pass])
  case checkFinished l =>
    obtain rfl := Option.some.inj h
    rw [checkFinished]
    split
    · exact .of_pass rfl rfl rfl rfl soundCode_nil (by simp [Effect.pass])
    · exact .of_pass rfl rfl rfl rfl (soundCode_cons.mpr ⟨⟨hs.phases, hs.records⟩, soundCode_nil⟩)
        (by simp [Effect.pass])
  case announce l =>
    obtain rfl := Option.some.inj h
    rw [announce]
    refine .of_pass rfl rfl rfl rfl ?_ (by simp [Effect.pass])
    split
    · exact idle rfl rfl
    · exact soundCode_cons.mpr ⟨⟨hs.phases, hs.records⟩, soundCode_nil⟩
  case fanOut todo =>
    obtain rfl := Option.some.inj h
    cases todo with
    | nil => exact .of_pass rfl rfl rfl rfl soundCode_nil (by simp [fanOut, Effect.pass])
    | cons r todo =>
      refine .of_pass rfl rfl rfl rfl (soundCode_cons.mpr ⟨⟨fun p hp => ?_, fun r' hr' => ?_⟩,
        soundCode_nil⟩) fun code hcode => ?_
      · exact hs.phases p (List.mem_cons_of_mem _ hp)
      · obtain ⟨h₁, h₂, -⟩ := hs.records r' (List.mem_cons_of_mem _ hr')
        exact ⟨h₁, h₂, Multiset.mem_coe.mpr (List.mem_map_of_mem hr')⟩
      · obtain rfl := List.mem_singleton.mp hcode
        have ho : Open (· ≠ .retryWait) _ _ := hs.phases (r.jobKey, .fresh) List.mem_cons_self
        exact soundCode_append (a := [_]).mpr
          ⟨live rfl rfl (ho.mono fun _ _ => trivial), idle rfl rfl⟩
  case preSubmitRun =>
    obtain rfl := Option.some.inj h
    have hg := hs.unreset rfl
    rw [preSubmitRun]
    split
    · refine .of_pass rfl rfl rfl rfl
        (soundCode_cons.mpr ⟨⟨fun p hp => ?_, by simp [Instr.records]⟩, soundCode_nil⟩)
        (by simp [Effect.pass])
      obtain ⟨k, hk, rfl⟩ := List.mem_map.mp hp
      simp only [List.map_nil, List.not_mem_nil, if_false]
      rw [hg k hk]
      exact settled_of_none
    · exact .of_pass rfl rfl rfl rfl (unreset rfl rfl hg) (by simp [Effect.pass])
    · exact .of_pass rfl rfl rfl rfl (unreset rfl rfl hg) (by simp [Effect.pass])
  case readPrevious b =>
    obtain rfl := Option.some.inj h
    have hg := hs.unreset rfl
    refine .of_pass rfl rfl rfl rfl (soundCode_cons.mpr ⟨⟨fun p hp => ?_, by simp [Instr.records]⟩,
      soundCode_nil⟩) (by simp [readPrevious, Effect.pass])
    simp only [Instr.tokens, List.map_nil, List.append_nil] at hp
    obtain ⟨ki, hki, rfl⟩ := List.mem_map.mp hp
    exact hg ki.1 (List.mem_map_of_mem hki)
  case gateReject f =>
    obtain rfl := Option.some.inj h
    have hg := hs.unreset rfl
    refine .of_pass rfl rfl rfl rfl (soundCode_cons.mpr ⟨⟨fun p hp => ?_, by simp [Instr.records]⟩,
      soundCode_nil⟩) (by simp [gateReject, Effect.pass])
    obtain ⟨k, hk, rfl⟩ := List.mem_map.mp hp
    change Settled (cyc.ledger.gens.get? k) _
    rw [hg k hk]
    exact settled_of_none
  case register | newContext | startLaunch | preSubmitStart | preSubmitOk | launch | readBlocked =>
    obtain rfl := Option.some.inj h
    have hg := hs.unreset rfl
    simp only [registerCycle, newContext, startLaunch, preSubmitStart, preSubmitOk, launchCycle,
      readBlocked]
    repeat' split
    all_goals exact .of_pass rfl rfl rfl rfl (unreset rfl rfl hg) (by simp [Effect.pass])
  -- what is left holds no unit
  case onRetryRequested k =>
    obtain rfl := Option.some.inj h
    rw [onRetryRequested]
    split
    · exact .of_pass rfl rfl rfl rfl (idle rfl rfl) (by simp [Effect.pass])
    · split
      · refine .of_pass rfl rfl rfl rfl soundCode_nil fun code hcode => ?_
        obtain rfl := List.mem_singleton.mp hcode
        exact idle rfl rfl
      · exact .of_pass rfl rfl rfl rfl soundCode_nil (by simp [Effect.pass])
  case requestRetry k =>
    obtain rfl := Option.some.inj h
    refine .of_pass rfl rfl rfl rfl soundCode_nil fun code hcode => ?_
    obtain rfl := List.mem_singleton.mp hcode
    exact idle rfl rfl
  case finishIfDone b =>
    obtain rfl := Option.some.inj h
    rw [finishIfDone]
    split
    · exact .of_pass rfl rfl rfl rfl soundCode_nil (by simp [Effect.pass])
    · exact .of_pass rfl rfl rfl rfl (soundCode_append (a := [_]).mpr ⟨idle rfl rfl, idle rfl rfl⟩)
        (by simp [Effect.pass])
  case emitProgress b =>
    obtain rfl := Option.some.inj h
    rw [emitProgress]
    split <;> exact .of_pass rfl rfl rfl rfl soundCode_nil (by simp [Effect.pass])
  case retried | releaseSlot | leave | note | unregister | dropContext =>
    obtain rfl := Option.some.inj h
    exact .of_pass rfl rfl rfl rfl soundCode_nil (by
      simp [markRetried, releaseSlot, leaveInflight, note, unregister, dropContext, Effect.pass])

end Exec

end Lsfmgr.Submit
