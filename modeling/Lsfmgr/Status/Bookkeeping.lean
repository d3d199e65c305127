import Mathlib
import Lsfmgr.Status.Flight
import Lsfmgr.Status.Order

/-!
# Status/Bookkeeping — the counters of a callback status source

`_inflight` counts the tokens that have not come back: those of the workers, and those of the
launches that failed, which never will.  The bound on it is tested at a takeover only.  It holds
nevertheless, because a source that is not fetching has room for one more (`Booked.idle`): the
worker that owned the current token left it.

With launches that succeed the counters are those of the workers (`bookkept`).  A launch that fails
leaves its token among the unreturned ones for good (`failedLaunch`).
-/

namespace Lsfmgr.Status

open Machinery

/-- In `_attempt_primary` between the two sections that count. -/
def Worker.primaryOpen (w : Worker) : Bool :=
  match w.stage with
  | .counted | .primary | .primaryReturned | .uncounting _ => true
  | _ => false

/-- The counters of the source. -/
structure Books where
  inflight : ℤ
  fetching : Bool
  fetchToken : Option ℕ
  primaryUnreturned : ℤ

def Source.books (s : Source) : Books :=
  ⟨s.inflight, s.fetching, s.fetchToken, s.primaryUnreturned⟩

namespace Source

@[simp] theorem books_noteOutcome (s : Source) (fetchAt : ℤ) (ok served : Bool) :
    (s.noteOutcome fetchAt ok served).books = s.books := by
  rw [noteOutcome]
  split <;> rfl

theorem books_takeIn (o : Options) (s : Source) (fetchAt : ℤ) (now : Time)
    (statuses : Option (List JobStatus)) : (s.takeIn o fetchAt now statuses).books = s.books := by
  rcases statuses with _ | sts
  · rfl
  · simp only [takeIn, succeed, prune]
    split_ifs <;> rfl

/-- A fetch that comes back is no longer in flight; the owner of the token ends the flight. -/
theorem books_finish (o : Options) (s : Source) (token : ℕ) (fetchAt : ℤ) (now : Time)
    (statuses : Option (List JobStatus)) (served : Bool) :
    (s.finish o token fetchAt now statuses served).books
      = ⟨s.inflight - 1, if s.fetchToken = some token then false else s.fetching, s.fetchToken,
          s.primaryUnreturned⟩ := by
  have h := books_takeIn o { s with inflight := s.inflight - 1 } fetchAt now statuses
  rw [finish, books_noteOutcome]
  generalize Source.takeIn _ _ _ _ _ = t at h
  obtain ⟨hin, hfetch, htoken, hprim⟩ := Books.mk.inj h
  simp only at hin hfetch htoken hprim
  rw [land, htoken]
  split
  case isTrue heq => simp [books, hin, hprim]
  case isFalse hne => simp [books, hin, hfetch, htoken, hprim]

/-- A fetch that was taken over leaves the flight of its successor alone. -/
theorem flight_finish (o : Options) (s : Source) {token : ℕ} (fetchAt : ℤ) (now : Time)
    (statuses : Option (List JobStatus)) (served : Bool) (hne : s.fetchToken ≠ some token) :
    let s' := s.finish o token fetchAt now statuses served
    s'.fetching = s.fetching ∧ s'.fetchToken = s.fetchToken ∧
      s'.fetchDeadline = s.fetchDeadline ∧ s'.gen = s.gen := by
  have hnote : ∀ t : Source, (t.noteOutcome fetchAt statuses.isSome served).fetching = t.fetching ∧
      (t.noteOutcome fetchAt statuses.isSome served).fetchToken = t.fetchToken ∧
      (t.noteOutcome fetchAt statuses.isSome served).fetchDeadline = t.fetchDeadline ∧
      (t.noteOutcome fetchAt statuses.isSome served).gen = t.gen := by
    intro t
    rw [noteOutcome]
    split <;> exact ⟨rfl, rfl, rfl, rfl⟩
  have htake : ∀ t : Source, (t.takeIn o fetchAt now statuses).fetching = t.fetching ∧
      (t.takeIn o fetchAt now statuses).fetchToken = t.fetchToken ∧
      (t.takeIn o fetchAt now statuses).fetchDeadline = t.fetchDeadline ∧
      (t.takeIn o fetchAt now statuses).gen = t.gen := by
    intro t
    rcases statuses with _ | sts
    · exact ⟨rfl, rfl, rfl, rfl⟩
    · simp only [takeIn, succeed, prune]
      split_ifs <;> exact ⟨rfl, rfl, rfl, rfl⟩
  obtain ⟨h₁, h₂, h₃, h₄⟩ := htake { s with inflight := s.inflight - 1 }
  intro s'
  have hland : s' = (({ s with inflight := s.inflight - 1 }.takeIn o fetchAt now
      statuses)).noteOutcome fetchAt statuses.isSome served := by
    simp only [s', finish, land]
    rw [if_neg (by rw [h₂]; exact hne)]
  rw [hland]
  obtain ⟨k₁, k₂, k₃, k₄⟩ := hnote ({ s with inflight := s.inflight - 1 }.takeIn o fetchAt now
    statuses)
  exact ⟨k₁.trans h₁, k₂.trans h₂, k₃.trans h₃, k₄.trans h₄⟩

end Source

/-- The tokens that have not come back. -/
def State.tokens (s : State) : List ℕ := s.workers.map (·.token) ++ s.lost

/-- **The counters are right**, whether or not launches fail. -/
structure Booked (s : State) : Prop where
  inflight : s.src.inflight = (s.tokens.length : ℕ)
  nodup : s.tokens.Nodup
  lt : ∀ t ∈ s.tokens, t < s.nextToken
  fetching : s.src.fetching = true ↔ ∃ t ∈ s.tokens, s.src.fetchToken = some t
  bound : s.src.inflight ≤ maxInflight
  /-- Without a fetch under way there is room for one. -/
  idle : s.src.fetching = false → s.src.inflight < maxInflight
  primary : s.src.primaryUnreturned = (s.workers.countP Worker.primaryOpen : ℕ)

theorem booked_init (o : Options) : Booked { src := o.source } where
  inflight := rfl
  nodup := List.nodup_nil
  lt t ht := by cases ht
  fetching := by simp [Options.source, State.tokens]
  bound := show (0 : ℤ) ≤ 3 by decide
  idle _ := show (0 : ℤ) < 3 by decide
  primary := rfl

section

variable {o : Options} {s s' : State} {r : Reads}

theorem Booked.congr (h : Booked s) (hw : s'.workers = s.workers) (hl : s'.lost = s.lost)
    (hn : s'.nextToken = s.nextToken) (hb : s'.src.books = s.src.books) : Booked s' := by
  have ht : s'.tokens = s.tokens := by rw [State.tokens, State.tokens, hw, hl]
  obtain ⟨h₁, h₂, h₃, h₄⟩ := Books.mk.inj hb
  refine ⟨?_, ?_, ?_, ?_, ?_, ?_, ?_⟩
  · rw [h₁, ht, h.inflight]
  · rw [ht]
    exact h.nodup
  · rw [ht, hn]
    exact h.lt
  · rw [h₂, ht, h₃]
    exact h.fetching
  · rw [h₁]
    exact h.bound
  · rw [h₁, h₂]
    exact h.idle
  · rw [h₄, hw, h.primary]

/-! ## The callers -/

theorem Booked.setCaller (h : Booked s) (j : ℕ) (c : Caller) (stage : AskStage) :
    Booked (s.setCaller j c stage) := h.congr rfl rfl rfl rfl

theorem Booked.putOff (h : Booked s) (j : ℕ) (c : Caller) (r : Reads) :
    Booked (s.putOff j c r) :=
  h.congr rfl rfl rfl (Source.books_noteOutcome _ _ _ _)

theorem Booked.await (h : Booked s) (j : ℕ) (c : Caller) (p : Terms) (r : Reads) :
    Booked (s.await j c p r) := by
  rw [State.await]
  split
  · exact h.putOff j c r
  · exact h.congr rfl rfl rfl rfl

/-- What a plan to launch was made on. -/
theorem launch_iff {src : Source} {clock : ℤ} : src.plan clock = .launch ↔
    src.fetching = false ∨ src.fetchDeadline ≤ clock ∧ src.inflight < maxInflight := by
  rw [Source.plan]
  rcases src.fetching with _ | _
  · simp
  · simp only [not_true_eq_false, if_false, Bool.true_eq_false, false_or]
    split
    case isTrue hlt => simp [hlt]
    case isFalse hge =>
      split
      case isTrue hfull => simp [not_lt.mpr hfull]
      case isFalse hroom => simp [not_lt.mp hge, not_le.mp hroom]

/-- **A launch keeps the counters right**, with a thread or without one. -/
theorem Booked.launch (h : Booked s) {clock : ℤ} (hplan : s.src.plan clock = .launch) (r : Reads)
    (startOk : Bool) : Booked (s.launch o r startOk) := by
  have htokens : (s.launch o r startOk).tokens.Perm (s.nextToken :: s.tokens) := by
    rcases startOk with _ | _
    · exact List.perm_middle
    · exact List.Perm.refl _
  have hfresh : s.nextToken ∉ s.tokens := fun hmem => lt_irrefl _ (h.lt _ hmem)
  have hroom : s.src.inflight < maxInflight := by
    rcases launch_iff.mp hplan with hidle | ⟨-, hroom⟩
    · exact h.idle hidle
    · exact hroom
  have hnew : s.nextToken ∈ (s.launch o r startOk).tokens :=
    htokens.mem_iff.mpr List.mem_cons_self
  have hsrc : (s.launch o r startOk).src = s.src.startFetch o s.nextToken r.launch := by
    rcases startOk with _ | _ <;> rfl
  have hnext : (s.launch o r startOk).nextToken = s.nextToken + 1 := by
    rcases startOk with _ | _ <;> rfl
  refine ⟨?_, ?_, ?_, ?_, ?_, ?_, ?_⟩
  · rw [htokens.length_eq, hsrc]
    have := h.inflight
    simp only [Source.startFetch, List.length_cons]
    push_cast
    omega
  · exact htokens.nodup_iff.mpr (List.nodup_cons.mpr ⟨hfresh, h.nodup⟩)
  · intro t ht
    rw [hnext]
    rcases List.mem_cons.mp (htokens.mem_iff.mp ht) with rfl | ht
    · exact Nat.lt_succ_self _
    · exact (h.lt t ht).trans (Nat.lt_succ_self _)
  · rw [hsrc]
    exact ⟨fun _ => ⟨_, hnew, rfl⟩, fun _ => rfl⟩
  · rw [hsrc]
    exact hroom
  · rw [hsrc]
    intro hf
    cases hf
  · rw [hsrc]
    rcases startOk with _ | _
    · exact h.primary
    · exact h.primary

theorem Booked.round (h : Booked s) (j : ℕ) (c : Caller) (p : Terms) (r : Reads)
    (startOk : Bool) : Booked (s.round o j c p r startOk) := by
  rw [State.round]
  split
  · exact h.setCaller j c _
  · split
    · exact h.setCaller j c _
    · split
      case h_1 => exact h.putOff j c r
      case h_2 => exact h.await j c p r
      case h_3 hplan =>
        dsimp only
        split
        · exact (h.launch hplan r startOk).await j c p r
        · exact (h.launch hplan r startOk).congr rfl rfl rfl rfl

theorem Booked.wake (h : Booked s) (j : ℕ) (c : Caller) (p : Terms) (before : WithBot ℤ)
    (gen n : ℕ) (notified : Bool) (r : Reads) (startOk : Bool) :
    Booked (s.wake o j c p before gen n notified r startOk) := by
  rw [State.wake]
  split
  · exact h.putOff j c r
  · split
    · exact h.setCaller j c _
    · split
      · exact h.round j c p r startOk
      · split
        · exact h.setCaller j c _
        · split
          · exact h.setCaller j c _
          · exact h.round j c p r startOk

theorem Booked.ask (h : Booked s) {j : ℕ} {c : Caller} {a : Act} (hs : s.ask o j c a = some s') :
    Booked s' := by
  cases a with
  | register =>
    simp only [State.ask] at hs
    split at hs
    case h_1 => obtain rfl := Option.some.inj hs; exact h.congr rfl rfl rfl rfl
    case h_2 => cases hs
  | setOut =>
    simp only [State.ask] at hs
    split at hs
    case h_1 => obtain rfl := Option.some.inj hs; exact h.congr rfl rfl rfl rfl
    case h_2 => cases hs
  | check =>
    simp only [State.ask] at hs
    split at hs
    case h_1 =>
      split at hs
      case isTrue => obtain rfl := Option.some.inj hs; exact h.round _ _ _ _ _
      case isFalse => cases hs
    case h_2 => cases hs
  | wake =>
    simp only [State.ask] at hs
    split at hs
    case h_1 =>
      split at hs
      case isTrue => obtain rfl := Option.some.inj hs; exact h.wake _ _ _ _ _ _ _ _ _
      case isFalse => cases hs
    case h_2 => cases hs
  | read =>
    simp only [State.ask] at hs
    split at hs
    case h_1 => obtain rfl := Option.some.inj hs; exact h.congr rfl rfl rfl rfl
    case h_2 => cases hs
  | _ => cases hs

/-! ## The workers -/

variable {i : ℕ} {w : Worker}

/-- A worker that goes on, with the counter of the primary callback set accordingly. -/
theorem Booked.setWorker (h : Booked s) (hi : s.workers[i]? = some w) (w' : Worker) (n : ℤ)
    (ht : w'.token = w.token) (hn : n + [w].countP Worker.primaryOpen
      = s.src.primaryUnreturned + [w'].countP Worker.primaryOpen) :
    Booked { s with src.primaryUnreturned := n, workers := replaceAt s.workers i [w'] } := by
  have htokens : State.tokens
      { s with src.primaryUnreturned := n, workers := replaceAt s.workers i [w'] }
      = s.tokens := by
    simp only [State.tokens, map_replaceAt_eq (·.token) hi ht]
  refine ⟨?_, ?_, ?_, ?_, h.bound, h.idle, ?_⟩
  · rw [htokens]
    exact h.inflight
  · rw [htokens]
    exact h.nodup
  · rw [htokens]
    exact h.lt
  · rw [htokens]
    exact h.fetching
  · have hcount := countP_replaceAt Worker.primaryOpen hi [w']
    have := h.primary
    simp only
    omega

/-- Steps that touch the worker alone do not cross the sections that count. -/
theorem primaryOpen_nextStage {interest : Finset ℕ} {a : Act} {stage : FetchStage}
    (h : State.nextStage interest w a = some stage) :
    Worker.primaryOpen { w with stage } = w.primaryOpen := by
  obtain ⟨token, useFailover, fetchAt, now, st⟩ := w
  cases a with
  | call =>
    cases st <;> simp [State.nextStage] at h <;> first
      | (obtain rfl := h; rfl)
      | (obtain ⟨-, rfl⟩ := h; rfl)
  | «return» =>
    cases st <;> simp [State.nextStage] at h <;> (obtain rfl := h; rfl)
  | raise i aborted =>
    cases st <;> simp [State.nextStage] at h <;> (obtain rfl := h; rfl)
  | parse i rows =>
    cases st <;> simp [State.nextStage] at h <;> (obtain rfl := h; rfl)
  | _ => cases h

theorem Booked.finish (h : Booked s) (hi : s.workers[i]? = some w) {outcome : Outcome}
    {served : Bool} (hstage : w.stage = .finishing outcome served) (merged : List (ℤ × Finset ℕ)) :
    Booked { s with
      src := s.src.finish o w.token w.fetchAt w.now outcome.statuses? served
      workers := replaceAt s.workers i []
      merged } := by
  obtain ⟨h₁, h₂, h₃, h₄⟩ := Books.mk.inj
    (s.src.books_finish o w.token w.fetchAt w.now outcome.statuses? served)
  generalize s.src.finish o w.token w.fetchAt w.now outcome.statuses? served = src at h₁ h₂ h₃ h₄
  have hperm : (w.token :: (replaceAt s.workers i []).map (·.token) ++ s.lost).Perm s.tokens :=
    ((perm_replaceAt_nil hi).map _).append_right _
  have hnd : w.token ∉ (replaceAt s.workers i []).map (·.token) ++ s.lost ∧
      ((replaceAt s.workers i []).map (·.token) ++ s.lost).Nodup :=
    List.nodup_cons.mp (hperm.nodup_iff.mpr h.nodup)
  have hlen := hperm.length_eq
  have hin := h.inflight
  rw [List.cons_append, List.length_cons] at hlen
  refine ⟨?_, hnd.2, ?_, ?_, ?_, ?_, ?_⟩
  · simp only [State.tokens]
    omega
  · intro t ht
    exact h.lt t (hperm.mem_iff.mp (List.mem_cons_of_mem _ ht))
  · simp only [State.tokens, h₂, h₃]
    split
    case isTrue hown =>
      -- the owner of the token has left
      constructor
      · intro hf
        cases hf
      · rintro ⟨t, ht, heq⟩
        obtain rfl := Option.some.inj (hown.symm.trans heq)
        exact absurd ht hnd.1
    case isFalse hother =>
      rw [h.fetching]
      constructor
      · rintro ⟨t, ht, heq⟩
        rcases List.mem_cons.mp (hperm.mem_iff.mpr ht) with rfl | ht
        · exact absurd heq hother
        · exact ⟨t, ht, heq⟩
      · rintro ⟨t, ht, heq⟩
        exact ⟨t, hperm.mem_iff.mp (List.mem_cons_of_mem _ ht), heq⟩
  · have := h.bound
    simp only
    omega
  · intro _
    have := h.bound
    simp only
    omega
  · have hcount := countP_replaceAt Worker.primaryOpen hi []
    have hclosed : [w].countP Worker.primaryOpen = 0 := by simp [Worker.primaryOpen, hstage]
    have := h.primary
    simp only [List.countP_nil] at hcount
    simp only
    omega

theorem Booked.fetch (h : Booked s) (hi : s.workers[i]? = some w) {a : Act}
    (hs : s.fetch o i w a = some s') : Booked s' := by
  have hnext : ∀ a, (State.nextStage s.src.interest w a).map (s.setWorker i w) = some s' →
      Booked s' := by
    intro a ha
    obtain ⟨stage, hstage, rfl⟩ := Option.map_eq_some_iff.mp ha
    refine (h.setWorker hi { w with stage } s.src.primaryUnreturned rfl ?_).congr rfl rfl rfl rfl
    simp [primaryOpen_nextStage hstage]
  cases a with
  | begin _ now =>
    simp only [State.fetch] at hs
    split at hs
    case h_1 hst =>
      obtain rfl := Option.some.inj hs
      refine (h.setWorker hi { w with fetchAt := s.clock, now, stage := .timed }
        s.src.primaryUnreturned rfl ?_).congr rfl rfl rfl rfl
      simp [Worker.primaryOpen, hst]
    case h_2 => cases hs
  | count _ =>
    simp only [State.fetch] at hs
    split at hs
    case h_1 hst =>
      split at hs
      case isTrue => cases hs
      case isFalse =>
        obtain rfl := Option.some.inj hs
        refine h.setWorker hi { w with stage := .counted } (s.src.primaryUnreturned + 1) rfl ?_
        simp [Worker.primaryOpen, hst]
    case h_2 => cases hs
  | uncount _ =>
    simp only [State.fetch] at hs
    split at hs
    case h_1 outcome hst =>
      have hclose : ∀ stage, Worker.primaryOpen { w with stage } = false →
          Booked ({ s with src.primaryUnreturned := s.src.primaryUnreturned - 1 }.setWorker i w
            stage) := by
        intro stage hclosed
        have hopen : w.primaryOpen = true := by rw [Worker.primaryOpen, hst]
        have hset := h.setWorker hi { w with stage } (s.src.primaryUnreturned - 1) rfl
        exact hset (by simp [hclosed, hopen])
      split at hs
      all_goals
        obtain rfl := Option.some.inj hs
        exact hclose _ rfl
    case h_2 => cases hs
  | finish _ =>
    simp only [State.fetch] at hs
    split at hs
    case h_1 outcome served hst =>
      obtain rfl := Option.some.inj hs
      exact h.finish hi hst _
    case h_2 => cases hs
  | call k => exact hnext (.call k) hs
  | «return» k => exact hnext (.return k) hs
  | raise k aborted => exact hnext (.raise k aborted) hs
  | parse k rows => exact hnext (.parse k rows) hs
  | _ => cases hs

/-- **Every step keeps the counters right.** -/
theorem Booked.step (h : Booked s) {a : Act} (hs : s.step o a = some s') : Booked s' := by
  have hcaller : ∀ j a, (s.callers[j]?.bind fun c => s.ask o j c a) = some s' → Booked s' := by
    intro j a ha
    obtain ⟨c, -, ha⟩ := Option.bind_eq_some_iff.mp ha
    exact h.ask ha
  have hworker : ∀ i a, (s.workers[i]?.bind fun w => s.fetch o i w a) = some s' → Booked s' := by
    intro i a ha
    obtain ⟨w, hi, ha⟩ := Option.bind_eq_some_iff.mp ha
    exact h.fetch hi ha
  cases a with
  | tick =>
    simp only [State.step] at hs
    split at hs
    case isTrue => obtain rfl := Option.some.inj hs; exact h.congr rfl rfl rfl rfl
    case isFalse => cases hs
  | ask =>
    simp only [State.step] at hs
    split at hs
    case isTrue => cases hs
    case isFalse => obtain rfl := Option.some.inj hs; exact h.congr rfl rfl rfl rfl
  | invalidate => obtain rfl := Option.some.inj hs; exact h.congr rfl rfl rfl rfl
  | forget => obtain rfl := Option.some.inj hs; exact h.congr rfl rfl rfl rfl
  | shutdown => obtain rfl := Option.some.inj hs; exact h.congr rfl rfl rfl rfl
  | notePollInterval intervalS =>
    obtain rfl := Option.some.inj hs
    refine h.congr rfl rfl rfl ?_
    simp only [Source.notePollInterval]
    split <;> rfl
  | register j => exact hcaller j _ hs
  | setOut j => exact hcaller j _ hs
  | check j => exact hcaller j _ hs
  | wake j => exact hcaller j _ hs
  | read j => exact hcaller j _ hs
  | begin i => exact hworker i _ hs
  | count i => exact hworker i _ hs
  | call i => exact hworker i _ hs
  | «return» i => exact hworker i _ hs
  | raise i => exact hworker i _ hs
  | parse i => exact hworker i _ hs
  | uncount i => exact hworker i _ hs
  | finish i => exact hworker i _ hs

end

theorem booked {o : Options} {s : State} (h : (system o).Reachable s) : Booked s :=
  h.invariant (fun _ hs => hs ▸ booked_init o) fun _ _ _ _ hI _ hs => hI.step hs

/-! ## Launches that fail -/

/-- If the step starts a thread, the thread starts. -/
def Act.startsOk : Act → Bool
  | .check _ _ ok | .wake _ _ _ ok => ok
  | _ => true

section

variable {o : Options} {s s' : State}

theorem lost_launch (s : State) (r : Reads) (startOk : Bool) :
    (s.launch o r startOk).lost = s.lost ∨
      startOk = false ∧ (s.launch o r startOk).lost = s.nextToken :: s.lost := by
  rcases startOk with _ | _
  · exact .inr ⟨rfl, rfl⟩
  · exact .inl rfl

theorem lost_await (s : State) (j : ℕ) (c : Caller) (p : Terms) (r : Reads) :
    (s.await j c p r).lost = s.lost := by
  rw [State.await]
  split <;> rfl

theorem lost_round (s : State) (j : ℕ) (c : Caller) (p : Terms) (r : Reads) (startOk : Bool) :
    (s.round o j c p r startOk).lost = s.lost ∨
      startOk = false ∧ (s.round o j c p r startOk).lost = s.nextToken :: s.lost := by
  rw [State.round]
  split
  · exact .inl rfl
  · split
    · exact .inl rfl
    · split
      case h_1 => exact .inl rfl
      case h_2 => exact .inl (lost_await _ _ _ _ _)
      case h_3 =>
        dsimp only
        split
        · rw [lost_await]
          exact lost_launch s r startOk
        · exact lost_launch s r startOk

theorem lost_wake (s : State) (j : ℕ) (c : Caller) (p : Terms) (before : WithBot ℤ) (gen n : ℕ)
    (notified : Bool) (r : Reads) (startOk : Bool) :
    (s.wake o j c p before gen n notified r startOk).lost = s.lost ∨
      startOk = false ∧
        (s.wake o j c p before gen n notified r startOk).lost = s.nextToken :: s.lost := by
  rw [State.wake]
  split
  · exact .inl rfl
  · split
    · exact .inl rfl
    · split
      · exact lost_round s j c p r startOk
      · split
        · exact .inl rfl
        · split
          · exact .inl rfl
          · exact lost_round s j c p r startOk

/-- **A token is lost only by a launch that fails**, and it stays lost. -/
theorem lost_step {a : Act} (hs : s.step o a = some s') :
    s'.lost = s.lost ∨ a.startsOk = false ∧ s'.lost = s.nextToken :: s.lost := by
  have hworker : ∀ i a, (s.workers[i]?.bind fun w => s.fetch o i w a) = some s' →
      s'.lost = s.lost := by
    intro i a ha
    obtain ⟨w, -, ha⟩ := Option.bind_eq_some_iff.mp ha
    have hnext : ∀ a, (State.nextStage s.src.interest w a).map (s.setWorker i w) = some s' →
        s'.lost = s.lost := by
      intro a ha
      obtain ⟨stage, -, rfl⟩ := Option.map_eq_some_iff.mp ha
      rfl
    cases a with
    | begin | count | finish =>
      simp only [State.fetch] at ha
      split at ha <;> try split at ha
      all_goals first
        | (cases ha; done)
        | (obtain rfl := Option.some.inj ha; rfl)
    | uncount =>
      simp only [State.fetch] at ha
      split at ha
      · split at ha
        all_goals
          obtain rfl := Option.some.inj ha
          rfl
      · cases ha
    | call k => exact hnext (.call k) ha
    | «return» k => exact hnext (.return k) ha
    | raise k aborted => exact hnext (.raise k aborted) ha
    | parse k rows => exact hnext (.parse k rows) ha
    | _ => cases ha
  cases a with
  | tick | ask =>
    simp only [State.step] at hs
    split at hs
    all_goals first
      | (cases hs; done)
      | (obtain rfl := Option.some.inj hs; exact .inl rfl)
  | invalidate | forget | shutdown | notePollInterval =>
    obtain rfl := Option.some.inj hs
    exact .inl rfl
  | register | setOut | read =>
    obtain ⟨c, -, hs⟩ := Option.bind_eq_some_iff.mp hs
    simp only [State.ask] at hs
    split at hs
    all_goals first
      | (cases hs; done)
      | (obtain rfl := Option.some.inj hs; exact .inl rfl)
  | check j r startOk =>
    obtain ⟨c, -, hs⟩ := Option.bind_eq_some_iff.mp hs
    simp only [State.ask] at hs
    split at hs
    case h_1 =>
      split at hs
      case isTrue => obtain rfl := Option.some.inj hs; exact lost_round _ _ _ _ _ _
      case isFalse => cases hs
    case h_2 => cases hs
  | wake j notified r startOk =>
    obtain ⟨c, -, hs⟩ := Option.bind_eq_some_iff.mp hs
    simp only [State.ask] at hs
    split at hs
    case h_1 =>
      split at hs
      case isTrue => obtain rfl := Option.some.inj hs; exact lost_wake _ _ _ _ _ _ _ _ _ _
      case isFalse => cases hs
    case h_2 => cases hs
  | begin i => exact .inl (hworker i _ hs)
  | count i => exact .inl (hworker i _ hs)
  | call i => exact .inl (hworker i _ hs)
  | «return» i => exact .inl (hworker i _ hs)
  | raise i => exact .inl (hworker i _ hs)
  | parse i => exact .inl (hworker i _ hs)
  | uncount i => exact .inl (hworker i _ hs)
  | finish i => exact .inl (hworker i _ hs)

/-- With launches that succeed no token is lost. -/
theorem lost_eq_nil (h : (system o).ReachableUnder (fun _ a => a.startsOk = true) s) :
    s.lost = [] := by
  refine h.invariant (I := fun s => s.lost = []) (fun _ hs => hs ▸ rfl)
    fun s a s' _ hI hok hs => ?_
  rcases lost_step hs with hlost | ⟨hfail, -⟩
  · exact hlost.trans hI
  · rw [hok] at hfail
    cases hfail

/-- What a launch sets before there is a thread. -/
def Source.flight (s : Source) : Bool × Option ℕ × WithTop ℤ × ℤ :=
  (s.fetching, s.fetchToken, s.fetchDeadline, s.inflight)

/-- The source survives the launch that fails: the bookkeeping is what it was, and a query that
could have started a fetch still can. -/
structure Survives (o : Options) (s : State) (r : Reads) : Prop where
  restored : (s.launch o r false).src.flight = s.src.flight
  next : ∀ clock, s.src.plan clock = .launch → (s.launch o r false).src.plan clock = .launch

/-- The counter alone gives it away. -/
theorem not_survives (o : Options) (s : State) (r : Reads) : ¬Survives o s r := by
  intro h
  have hin : s.src.inflight + 1 = s.src.inflight := congrArg (fun f => f.2.2.2) h.restored
  omega

/-- When the query after a lost launch starts a fetch. -/
theorem plan_launch_iff (h : Booked s) (r : Reads) (clock : ℤ) :
    (s.launch o r false).src.plan clock = .launch ↔
      r.launch + o.waitTimeout ≤ clock ∧
        (s.workers.length + s.lost.length + 1 : ℤ) < maxInflight := by
  have hlen : s.src.inflight = (s.workers.length + s.lost.length : ℤ) := by
    rw [h.inflight, State.tokens, List.length_append, List.length_map]
    push_cast
    rfl
  rw [launch_iff, ← hlen]
  simp only [State.launch, Source.startFetch, Bool.false_eq_true, if_false, Bool.true_eq_false,
    false_or, WithTop.coe_le_coe]

/-- With as many tokens lost as may be in flight nothing is ever launched. -/
theorem not_launch_of_lost (h : Booked s) (hlost : maxInflight ≤ s.lost.length) (clock : ℤ) :
    s.src.plan clock ≠ .launch := by
  have hfull : maxInflight ≤ s.src.inflight := by
    rw [h.inflight, State.tokens, List.length_append]
    push_cast
    omega
  rw [Ne, launch_iff]
  rintro (hidle | ⟨-, hroom⟩)
  · exact absurd (h.idle hidle) (not_lt.mpr hfull)
  · exact absurd hroom (not_lt.mpr hfull)

/-- Lost tokens stay lost along a run. -/
theorem lost_run {as : List Act} (h : Booked s) (hs : (system o).run s as = some s') :
    Booked s' ∧ s.lost.length ≤ s'.lost.length := by
  induction as generalizing s with
  | nil =>
    obtain rfl := Option.some.inj hs
    exact ⟨h, le_rfl⟩
  | cons a as ih =>
    obtain ⟨t, hstep, hrun⟩ := Option.bind_eq_some_iff.mp hs
    obtain ⟨hb, hle⟩ := ih (h.step hstep) hrun
    refine ⟨hb, le_trans ?_ hle⟩
    rcases lost_step hstep with hlost | ⟨-, hlost⟩
    · rw [hlost]
    · rw [hlost]
      exact Nat.le_succ _

/-- **A failed launch is never survived.**  The next query starts a fetch exactly when the deadline
of the launch has passed and the lost launches leave room for one; with the third one lost, no query
after it ever does. -/
theorem failedLaunch (h : (system o).Reachable s) {clock : ℤ}
    (hplan : s.src.plan clock = .launch) (r : Reads) :
    ¬Survives o s r ∧
    (∀ next, (s.launch o r false).src.plan next = .launch ↔ r.launch + o.waitTimeout ≤ next ∧
      (s.workers.length + s.lost.length + 1 : ℤ) < maxInflight) ∧
    (maxInflight ≤ s.lost.length + 1 → ∀ as s', (system o).run (s.launch o r false) as = some s' →
      ∀ next, s'.src.plan next ≠ .launch) := by
  have hb := booked h
  refine ⟨not_survives o s r, plan_launch_iff hb r, fun hlost as s' hrun next => ?_⟩
  obtain ⟨hb', hle⟩ := lost_run (hb.launch hplan r false) hrun
  refine not_launch_of_lost hb' ?_ next
  have hlen : (s.launch o r false).lost.length = s.lost.length + 1 := rfl
  omega

/-- Two launches are lost, each when the deadline of the one before has passed. -/
def twoLost : List Act :=
  let soon : Reads := ⟨0, 0, 0, 0⟩
  let later : Reads := ⟨6 * second, 6 * second, 6 * second, 6 * second⟩
  [.ask [7] false, .register 0, .setOut 0, .check 0 soon false,
    .tick (6 * second), .ask [7] true, .register 0, .setOut 0, .check 0 later false,
    .tick (12 * second)]

theorem failedLaunch_third :
    let o : Options := { failover := false, refreshMinS := none, waitTimeoutS := 5 * second }
    let r : Reads := ⟨12 * second, 12 * second, 12 * second, 12 * second⟩
    ∃ s, (system o).run { src := o.source } twoLost = some s ∧
      s.src.plan (12 * second) = .launch ∧ ¬Survives o s r ∧
      ∀ as s', (system o).run (s.launch o r false) as = some s' →
        ∀ next, s'.src.plan next ≠ .launch := by
  intro o r
  have hrun : ((system o).run { src := o.source } twoLost).bind
      (fun s => if s.src.plan (12 * second) = .launch ∧ s.lost.length = 2 then some () else none)
      = some () := by decide +kernel
  obtain ⟨s, hs, hrest⟩ := Option.bind_eq_some_iff.mp hrun
  obtain ⟨⟨hplan, hlost⟩, -⟩ := Option.ite_none_right_eq_some.mp hrest
  obtain ⟨hnot, -, hstuck⟩ := failedLaunch (System.reachable_of_run (.init rfl) hs) hplan r
  exact ⟨s, hs, hplan, hnot, hstuck (by rw [hlost]; decide)⟩

/-- The first launch of all fails. -/
theorem not_survives_first : ¬ ∀ (o : Options) s (r : Reads), (system o).Reachable s →
    s.src.plan r.takeover = .launch → Survives o s r := by
  intro h
  let o : Options := { failover := false, refreshMinS := none, waitTimeoutS := 5 * second }
  have hs := h o { src := o.source } ⟨0, 0, 0, 0⟩ (.init rfl) rfl
  exact absurd hs.restored (by decide)

/-! ## One flight at a time -/

/-- A worker whose token was taken over leaves the flight of its successor alone. -/
theorem flight_fetch {i : ℕ} {w : Worker} {a : Act} (hne : s.src.fetchToken ≠ some w.token)
    (hs : s.fetch o i w a = some s') :
    s'.src.fetching = s.src.fetching ∧ s'.src.fetchToken = s.src.fetchToken ∧
      s'.src.fetchDeadline = s.src.fetchDeadline ∧ s'.src.gen = s.src.gen := by
  have hnext : ∀ a, (State.nextStage s.src.interest w a).map (s.setWorker i w) = some s' →
      s'.src = s.src := by
    intro a ha
    obtain ⟨stage, -, rfl⟩ := Option.map_eq_some_iff.mp ha
    rfl
  have hsame : s'.src = s.src → s'.src.fetching = s.src.fetching ∧
      s'.src.fetchToken = s.src.fetchToken ∧ s'.src.fetchDeadline = s.src.fetchDeadline ∧
      s'.src.gen = s.src.gen := fun h => by rw [h]; exact ⟨rfl, rfl, rfl, rfl⟩
  cases a with
  | begin | count =>
    simp only [State.fetch] at hs
    split at hs <;> try split at hs
    all_goals first
      | (cases hs; done)
      | (obtain rfl := Option.some.inj hs; exact ⟨rfl, rfl, rfl, rfl⟩)
  | uncount =>
    simp only [State.fetch] at hs
    split at hs
    · split at hs
      all_goals
        obtain rfl := Option.some.inj hs
        exact ⟨rfl, rfl, rfl, rfl⟩
    · cases hs
  | finish =>
    simp only [State.fetch] at hs
    split at hs
    · obtain rfl := Option.some.inj hs
      exact s.src.flight_finish o _ _ _ _ hne
    · cases hs
  | call k => exact hsame (hnext (.call k) hs)
  | «return» k => exact hsame (hnext (.return k) hs)
  | raise k aborted => exact hsame (hnext (.raise k aborted) hs)
  | parse k rows => exact hsame (hnext (.parse k rows) hs)
  | _ => cases hs

/-- **The bookkeeping of the single flight.** -/
structure Bookkept (o : Options) (s : State) : Prop where
  inflight : s.src.inflight = (s.workers.length : ℕ)
  bound : s.src.inflight ≤ maxInflight
  /-- At most one worker has the current token; the source is fetching while it is unfinished. -/
  tokens : (s.workers.map (·.token)).Nodup
  fetching : s.src.fetching = true ↔ ∃ w ∈ s.workers, s.src.fetchToken = some w.token
  /-- A worker whose token was taken over never clears what belongs to the current one. -/
  takenOver : ∀ i w a s', s.workers[i]? = some w → s.src.fetchToken ≠ some w.token →
    s.fetch o i w a = some s' →
    s'.src.fetching = s.src.fetching ∧ s'.src.fetchToken = s.src.fetchToken ∧
      s'.src.fetchDeadline = s.src.fetchDeadline ∧ s'.src.gen = s.src.gen
  /-- The calls of `_attempt_primary` between its two sections: about to enter the callback, in it,
  or with its payload still to be parsed. -/
  primary : s.src.primaryUnreturned = (s.workers.countP Worker.primaryOpen : ℕ)

theorem bookkept (h : (system o).ReachableUnder (fun _ a => a.startsOk = true) s) :
    Bookkept o s := by
  have hb := booked h.reachable
  have htokens : s.tokens = s.workers.map (·.token) := by
    rw [State.tokens, lost_eq_nil h, List.append_nil]
  refine ⟨?_, hb.bound, htokens ▸ hb.nodup, ?_, fun _ _ _ _ _ => flight_fetch, hb.primary⟩
  · rw [hb.inflight, htokens, List.length_map]
  · rw [hb.fetching, htokens]
    simp

/-- A caller takes over the fetch of another, which returns late. -/
def takenOver : List Act :=
  let soon : Reads := ⟨0, 0, 0, 0⟩
  let later : Reads := ⟨9 * second, 9 * second, 9 * second, 9 * second⟩
  [.ask [7] true, .register 0, .setOut 0, .check 0 soon true, .begin 0 0, .count 0, .call 0,
    .tick (9 * second), .ask [8] true, .register 0, .setOut 0, .check 0 later true,
    .«return» 1, .parse 1 (some []), .uncount 1, .begin 0 1, .finish 1]

theorem bookkept_takenOver :
    let o : Options := { failover := true, refreshMinS := none, waitTimeoutS := 5 * second }
    ∃ s, (system o).runUnder (fun _ a => a.startsOk) { src := o.source } takenOver = some s ∧
      s.src.fetching = true ∧ s.src.inflight = 1 ∧ Bookkept o s := by
  intro o
  have hrun : ((system o).runUnder (fun _ a => a.startsOk) { src := o.source } takenOver).bind
      (fun s => if s.src.fetching = true ∧ s.src.inflight = 1 then some () else none)
      = some () := by decide +kernel
  obtain ⟨s, hs, hrest⟩ := Option.bind_eq_some_iff.mp hrun
  obtain ⟨⟨hfetching, hinflight⟩, -⟩ := Option.ite_none_right_eq_some.mp hrest
  exact ⟨s, hs, hfetching, hinflight,
    bookkept (System.reachableUnder_of_runUnder (fun _ _ h => h) (.init rfl) hs)⟩

/-- The callback itself is running. -/
def Worker.inPrimary (w : Worker) : Bool :=
  match w.stage with
  | .primary => true
  | _ => false

/-- A call stays counted while its payload is parsed. -/
theorem not_primary_running : ¬ ∀ (o : Options) s,
    (system o).ReachableUnder (fun _ a => a.startsOk = true) s →
      s.src.primaryUnreturned = (s.workers.countP Worker.inPrimary : ℕ) := by
  intro h
  let o : Options := { failover := true, refreshMinS := none, waitTimeoutS := 5 * second }
  have hrun : ((system o).runUnder (fun _ a => a.startsOk) { src := o.source }
      [.ask [7] true, .register 0, .setOut 0, .check 0 ⟨0, 0, 0, 0⟩ true, .begin 0 0, .count 0,
        .call 0, .«return» 0]).bind
      (fun s => if s.src.primaryUnreturned = (s.workers.countP Worker.inPrimary : ℕ) then none
        else some ()) = some () := by decide +kernel
  obtain ⟨s, hs, hrest⟩ := Option.bind_eq_some_iff.mp hrun
  exact (Option.ite_none_left_eq_some.mp hrest).1
    (h o s (System.reachableUnder_of_runUnder (fun _ _ h => h) (.init rfl) hs))

end

end Lsfmgr.Status
