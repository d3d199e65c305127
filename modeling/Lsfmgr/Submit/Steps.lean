import Mathlib
import Lsfmgr.Submit.System

/-!
# Submit/Steps — what a step can do to the shared state and the threads

Most of the actions of the system are writes of the rest of the library, and all of these treat a
record alike: they keep its generation and its job id, and move its state only to one that the
submitter does not use (`Held`); or they remove it; or they put one of a new generation, without a
job id, in its place (`Kept`).  `step_cases` says once what the kinds of steps are; every invariant
of the system is derived from it.
-/

namespace Lsfmgr.Submit

open Machinery

/-- The record as a write of the rest of the library leaves it. -/
structure Held (old new : JobRecord) : Prop where
  generation : new.generation = old.generation
  jobId : new.jobId = old.jobId
  state : new.state = old.state ∨ new.state = .lost ∨ new.state.isReported = true
  /-- No such write brings a record back on LSF. -/
  onLsf : new.state.isOnLsf = true → old.state.isOnLsf = true

theorem Held.refl (r : JobRecord) : Held r r := ⟨rfl, rfl, .inl rfl, id⟩

/-- What the store holds at a key after such a write: a held record, none, or a new one with a
generation from `n` on and below `m`. -/
def Kept (n m : ℕ) (old new : Option JobRecord) : Prop :=
  ∀ r, new = some r → (n ≤ r.generation ∧ r.generation < m ∧ r.jobId = none) ∨
    ∃ r₀, old = some r₀ ∧ Held r₀ r

theorem Kept.refl (n m : ℕ) (r : Option JobRecord) : Kept n m r r :=
  fun r' h => .inr ⟨r', h, .refl r'⟩

theorem Kept.none (n m : ℕ) (r : Option JobRecord) : Kept n m r none := fun _ h => by cases h

/-- A write at one key that the other keys do not see. -/
theorem kept_of_wrote {s s' : InMemoryStore} {js js' k : String} {v : Option JobRecord} {n m : ℕ}
    (hw : s.Wrote js' k v s') (hv : Kept n m (s.job? js' k) v) (k' : String) :
    Kept n m (s.job? js k') (s'.job? js k') := by
  rw [hw.job?]
  split
  case isTrue hc =>
    obtain ⟨rfl, rfl⟩ := hc
    exact hv
  case isFalse => exact .refl _ _ _

/-- The states of a store before and after a write of the rest of the library. -/
structure KeptStore (js : String) (n m : ℕ) (s s' : InMemoryStore) : Prop where
  placed : s'.Placed
  kept : ∀ k, Kept n m (s.job? js k) (s'.job? js k)

theorem transition_kept {s s' : InMemoryStore} {js js' k : String} {now : Time}
    {ns : Option JobState} {p : JobRecord → Bool} {fields : List Field} {r : Option JobRecord}
    {n m : ℕ} (hp : s.Placed) (hf : ∀ f ∈ fields, f.Plain)
    (hheld : ∀ old, p old = true →
      Held old (old.rewrite now (ns.getD old.state) old.revision fields))
    (h : s.transition now js' k ns (Guard.of p) fields = .ok (r, s')) : KeptStore js n m s s' := by
  have hT := InMemoryStore.transition_cases js' k now fields hp hf ns p
  rw [h] at hT
  cases hT with
  | refused => exact ⟨hp, fun k => .refl _ _ _⟩
  | done hold hpold hw =>
    refine ⟨hw.placed hp, kept_of_wrote hw fun r' hr' => .inr ⟨_, hold, ?_⟩⟩
    obtain rfl := Option.some.inj hr'
    exact hheld _ hpold

/-- The cycle with the flags of a cancellation raised. -/
def Cycle.cancel (cyc : Cycle) : Scope → Cycle
  | none => { cyc with cancelEvent := true }
  | some ks => { cyc with cancelledKeys := cyc.cancelledKeys ∪ ks }

/-- The entries a cancellation of this scope aborts. -/
def Cycle.abortedKeys (cyc : Cycle) (scope : Scope) : List Key :=
  cyc.pendingRetries.keys.filter scope.Covers

/-- The thread whose instruction an action runs. -/
def Act.ran : Act → Option ℕ
  | thread i _ => some i
  | _ => none

/-- **The kinds of steps**, by what they do to the shared state and the threads; `ran` is the thread
that runs an instruction, if one does. -/
inductive Stepped (P : Params) (w : Shared) (ts : List Thread) :
    Option ℕ → Shared → List Thread → Prop
  /-- One thread runs one instruction. -/
  | thread {i : ℕ} {o : Oracle} {t : Thread} {x : Instr} {rest : List Instr} {cyc : Cycle}
      {e : Effect} : ts[i]? = some t → t.code = x :: rest → w.cycles[t.cycle]? = some cyc →
      exec P o t.cycle cyc w x = some e →
      Stepped P w ts (some i) (w.apply t.cycle e)
        (replaceAt ts i (⟨t.cycle, e.code ++ rest⟩ :: e.spawned.map (Thread.mk t.cycle)))
  /-- A cycle is created over distinct keys; none is active. -/
  | submit {cyc : Cycle} {preSubmit : Bool} : w.isActive = false → cyc.keys.Nodup →
      (∃ keyed maxRetry slotLimit, cyc = { keyed, maxRetry, slotLimit }) →
      Stepped P w ts none { w with cycles := w.cycles ++ [cyc], contexts := some w.cycles.length }
        (ts ++ [⟨w.cycles.length, [.register preSubmit]⟩])
  /-- The flags of a cancellation. -/
  | cancel {c : ℕ} {cyc : Cycle} (scope : Scope) : w.cycles[c]? = some cyc →
      Stepped P w ts none (w.setCycle c (cyc.cancel scope)) ts
  /-- The retries of a scope are aborted; a thread settles them. -/
  | abort {c : ℕ} {cyc : Cycle} (scope : Scope) (how : Settlement) (reason : String) :
      w.cycles[c]? = some cyc →
      Stepped P w ts none (w.setCycle c (cyc.popRetries how (cyc.abortedKeys scope)).2)
        (ts ++ [⟨c, (cyc.popRetries how (cyc.abortedKeys scope)).1.map fun k =>
          .giveUp k reason⟩])
  /-- The rest of the library writes to the jobset; it makes no record while a cycle is active. -/
  | write {store : InMemoryStore} {m : ℕ} : w.nextGen ≤ m → (w.isActive = true → m = w.nextGen) →
      KeptStore P.jobsetId w.nextGen m w.store store →
      Stepped P w ts none { w with store, nextGen := m } ts
  /-- A barrier goes up or down, the shutdown flag is raised, a kill moves on. -/
  | flags (barriers : List (ℕ × Scope)) (shutdown : Bool) :
      (w.shutdown = true → shutdown = true) →
      Stepped P w ts none { w with gate := { w.gate with barriers }, shutdown } ts

theorem Stepped.refl (P : Params) (w : Shared) (ts : List Thread) : Stepped P w ts none w ts :=
  .flags w.gate.barriers w.shutdown id

section Cases

variable {P : Params} {s s' : State}

theorem stepThread_cases {i : ℕ} {o : Oracle} (h : s.stepThread P i o = some s') :
    Stepped P s.shared s.threads (some i) s'.shared s'.threads ∧ s'.kills = s.kills := by
  rw [State.stepThread] at h
  split at h
  · cases h
  · rename_i t ht
    split at h
    · rename_i x rest cyc hcode hcyc
      obtain ⟨e, he, rfl⟩ := Option.map_eq_some_iff.mp h
      exact ⟨.thread ht hcode hcyc he, rfl⟩
    · cases h

theorem submit_cases (hp : s.shared.store.Placed) {only : Option (List Ref)} {a b : ℕ}
    {pre : Bool} (h : s.submit P only a b pre = some s') :
    Stepped P s.shared s.threads none s'.shared s'.threads ∧ s'.kills = s.kills := by
  rw [State.submit] at h
  split at h
  case isTrue => cases h
  case isFalse hact =>
    split at h
    case h_1 => cases h
    case h_2 targets ht =>
      obtain rfl := Option.some.inj h
      have hna : s.shared.isActive = false := by
        simpa using fun ha => hact (.inl ha)
      refine ⟨.submit hna ?_ ⟨_, _, _, rfl⟩, rfl⟩
      simpa [Cycle.keys, Function.comp_def] using (nodup_submitTargets hp ht).1

theorem cancelScope_cases (w : Shared) (ts : List Thread) (c : ℕ) (scope : Scope) :
    Stepped P w ts none (w.cancelScope c scope) ts := by
  rw [Shared.cancelScope]
  split
  case h_1 => exact .refl P w ts
  case h_2 cyc hc =>
    cases scope with
    | none => exact .cancel none hc
    | some ks => exact .cancel (some ks) hc

theorem abortRetries_cases (w : Shared) (ts : List Thread) (c : ℕ) (scope : Scope)
    (how : Settlement) (reason : String) :
    Stepped P w ts none (w.abortRetries c scope how reason).1
      (ts ++ (w.abortRetries c scope how reason).2) := by
  rw [Shared.abortRetries]
  split
  case h_1 => simpa using Stepped.refl P w ts
  case h_2 cyc hc => exact .abort scope how reason hc

theorem stepKill_cases {j : ℕ} {timeout : Bool} (h : s.stepKill j timeout = some s') :
    Stepped P s.shared s.threads none s'.shared s'.threads := by
  rw [State.stepKill] at h
  split at h
  case h_1 => cases h
  case h_2 kl hkl =>
    split at h
    case h_1 => obtain rfl := Option.some.inj h; exact .flags _ s.shared.shutdown id
    case h_2 => obtain rfl := Option.some.inj h; exact .refl ..
    case h_3 acts c todo _ =>
      obtain rfl := Option.some.inj h
      exact cancelScope_cases s.shared s.threads c kl.scope
    case h_4 acts c todo _ =>
      obtain rfl := Option.some.inj h
      exact abortRetries_cases s.shared s.threads c kl.scope .aborted "KILLED"
    case h_5 => obtain rfl := Option.some.inj h; exact .refl ..
    case h_6 =>
      split at h
      · obtain rfl := Option.some.inj h; exact .refl ..
      · split at h
        · obtain rfl := Option.some.inj h; exact .refl ..
        · cases h
    case h_7 => obtain rfl := Option.some.inj h; exact .flags _ s.shared.shutdown id
    case h_8 => cases h

/-- A store write that keeps the records makes a step. -/
theorem write_cases {α : Type} {out : Except StoreError (α × InMemoryStore)}
    (hk : ∀ a st, out = .ok (a, st) →
      KeptStore P.jobsetId s.shared.nextGen s.shared.nextGen s.shared.store st)
    (h : s.write out = some s') :
    Stepped P s.shared s.threads none s'.shared s'.threads ∧ s'.kills = s.kills := by
  rcases out with e | ⟨a, st⟩
  · cases h
  · obtain rfl := Option.some.inj h
    exact ⟨.write le_rfl (fun _ => rfl) (hk a st rfl), rfl⟩

/-- A new record at a key, with the next generation. -/
theorem write_new_cases {k : Key} {out : Except StoreError (JobRecord × InMemoryStore)}
    (hw : ∀ r st, out = .ok (r, st) → r.generation = s.shared.nextGen ∧ r.jobId = none ∧
      s.shared.store.Wrote P.jobsetId k (some r) st)
    (hact : ¬s.shared.isActive = true) (hp : s.shared.store.Placed)
    (h : (s.write out).map (fun s => { s with shared := { s.shared with
      nextGen := s.shared.nextGen + 1 } }) = some s') :
    Stepped P s.shared s.threads none s'.shared s'.threads ∧ s'.kills = s.kills := by
  rcases out with e | ⟨r, st⟩
  · cases h
  · obtain rfl := Option.some.inj h
    obtain ⟨hg, hj, hwr⟩ := hw r st rfl
    refine ⟨.write (Nat.le_succ _) (fun ha => absurd ha hact)
      ⟨hwr.placed hp, kept_of_wrote hwr fun r' hr' => .inl ?_⟩, rfl⟩
    obtain rfl := Option.some.inj hr'
    exact ⟨hg.ge, hg ▸ Nat.lt_succ_self _, hj⟩

/-- **What a step can do**, to the shared state and the threads; only a kill's own steps change the
kills. -/
theorem step_cases (hp : s.shared.store.Placed) {a : Act} (h : State.step P s a = some s') :
    Stepped P s.shared s.threads a.ran s'.shared s'.threads := by
  cases a with
  | thread i o => exact (stepThread_cases h).1
  | submit only m n pre => exact (submit_cases hp h).1
  | cancelSubmit =>
    obtain ⟨c, -, rfl⟩ := Option.map_eq_some_iff.mp h
    exact cancelScope_cases s.shared s.threads c none
  | abortRetries c how =>
    simp only [State.step] at h
    split at h
    case h_1 => cases h
    case h_2 =>
      split at h
      · obtain rfl := Option.some.inj h
        exact abortRetries_cases s.shared s.threads c none how _
      · cases h
  | shutdown =>
    obtain rfl := Option.some.inj h
    exact .flags s.shared.gate.barriers _ fun _ => rfl
  | newKill scope => obtain rfl := Option.some.inj h; exact .refl ..
  | kill j timeout => exact stepKill_cases h
  | refuseKill j =>
    simp only [State.step] at h
    split at h
    · obtain rfl := Option.some.inj h; exact .flags _ s.shared.shutdown id
    · cases h
  | poll rec st ru cc now =>
    simp only [State.step] at h
    split at h
    case isFalse => cases h
    case isTrue hrec =>
      split at h
      case h_1 => cases h
      case h_2 fields hmerge =>
        refine (write_cases (fun r st' hok => ?_) h).1
        refine transition_kept hp (mergeFields_plain hmerge) (fun old hold => ?_) hok
        obtain ⟨-, hid, hst⟩ := unchanged_iff.mp hold
        obtain ⟨hg, hj, hs⟩ := mergeFields_rewrite old hmerge now
          ((some st.state).getD old.state) old.revision
        obtain ⟨id, hsome⟩ := Option.isSome_iff_exists.mp hrec.2.1
        exact ⟨hg, by rw [hj, hid, hsome]; rfl, .inr (.inr (by rw [hs]; exact hrec.2.2)),
          fun _ => hst ▸ hrec.1⟩
  | pollLost rec now =>
    simp only [State.step] at h
    split at h
    case isFalse => cases h
    case isTrue =>
      exact (write_cases (fun r st' hok => transition_kept hp
        (by simp [Field.Plain, Field.badName?, Field.keyName?])
        (fun old _ => ⟨rfl, rfl, .inr (.inl rfl),
          by simp [JobRecord.rewrite, JobState.isOnLsf]⟩) hok) h).1
  | detectLost rec now =>
    simp only [State.step] at h
    split at h
    case isFalse => cases h
    case isTrue =>
      exact (write_cases (fun r st' hok => transition_kept hp
        (by simp [Field.Plain, Field.badName?, Field.keyName?])
        (fun old _ => ⟨rfl, rfl, .inr (.inl rfl),
          by simp [JobRecord.rewrite, JobState.isOnLsf]⟩) hok) h).1
  | markExit target now =>
    simp only [State.step] at h
    split at h
    case isFalse => cases h
    case isTrue =>
      exact (write_cases (fun r st' hok => transition_kept hp
        (by simp [Field.Plain, Field.badName?, Field.keyName?])
        (fun old _ => ⟨rfl, rfl, .inr (.inr rfl),
          by simp [JobRecord.rewrite, JobState.isOnLsf]⟩) hok) h).1
  | markFlag target now =>
    simp only [State.step] at h
    split at h
    case isFalse => cases h
    case isTrue =>
      exact (write_cases (fun r st' hok => transition_kept hp
        (by simp [Field.Plain, Field.badName?, Field.keyName?])
        (fun old _ => ⟨rfl, rfl, .inl rfl, id⟩) hok) h).1
  | setUserData k data now =>
    simp only [State.step, InMemoryStore.transition_no_guard] at h
    exact (write_cases (fun r st' hok => transition_kept hp
      (by simp [Field.Plain, Field.badName?, Field.keyName?])
      (fun old _ => ⟨rfl, rfl, .inl rfl, id⟩) hok) h).1
  | addJob k command data cwd now =>
    simp only [State.step] at h
    split at h
    case isTrue => cases h
    case isFalse hact =>
      refine (write_new_cases (k := k) (fun r st hok => ?_) hact hp h).1
      obtain ⟨rfl, -, hw⟩ := InMemoryStore.storeAddJob_ok hok
      exact ⟨rfl, rfl, hw⟩
  | replaceJob k command data cwd now =>
    simp only [State.step] at h
    split at h
    case isTrue => cases h
    case isFalse hact =>
      refine (write_new_cases (k := k) (fun r st hok => ?_) hact hp h).1
      obtain ⟨old, -, rfl, hw⟩ := InMemoryStore.updateJob_ok hok
      exact ⟨rfl, rfl, hw⟩
  | removeJob k =>
    refine (write_cases (fun r st hok => ?_) h).1
    rcases InMemoryStore.dropRec_cases s.shared.store P.jobsetId k with
      ⟨-, hd⟩ | ⟨old, st', -, hd, hw⟩
    · simp [InMemoryStore.storeDeleteJob, hd] at hok
    · obtain ⟨-, rfl⟩ : old = r ∧ st' = st := by
        simpa [InMemoryStore.storeDeleteJob, hd] using hok
      exact ⟨hw.placed hp, kept_of_wrote hw (.none _ _ _)⟩
  | removeJobset =>
    obtain rfl := Option.some.inj h
    refine .write le_rfl (fun _ => rfl) ⟨hp.storeDeleteJobset _, fun k => ?_⟩
    rw [InMemoryStore.job?_storeDeleteJobset, if_pos rfl]
    exact .none _ _ _

end Cases

end Lsfmgr.Submit
