import Mathlib
import Lsfmgr.Kill.Bkill
import Lsfmgr.Kill.Requery

/-!
# Kill/Confirm — `_kill_confirm`, `bkill` again for what is not resolved

A round sends what is pending, and asks what became of those targets whose `bkill` did not return.
What either of the two says is added up over the rounds; a target leaves the pending ones with the
first answer that resolves it, and its acceptance may be from a round in which it was not resolved.
-/

namespace Lsfmgr.Kill

open Machinery Command

/-- What was sent in a round, and what was answered. -/
structure Round where
  sent : Finset Text
  outcome : BkillOutcome
  confirmed : Confirmed := {}

/-- What is resolved in the round. -/
def Round.settled (r : Round) : Finset Text := r.outcome.resolved ∪ r.confirmed.gone

/-- What is accepted in the round. -/
def Round.admitted (r : Round) : Finset Text := r.outcome.accepted ∪ r.confirmed.byKill

/-- The targets whose fate the round does not know from `bkill`. -/
def Round.unknown (r : Round) : Finset Text := r.outcome.timedOut ∩ (r.sent \ r.outcome.resolved)

/-- The locals of `_kill_confirm`; `rounds` is a history that is not read. -/
structure Progress where
  pending : Finset Text
  acceptedAll : Finset Text := ∅
  resolvedAll : Finset Text := ∅
  calls : ℕ := 0
  attempt : ℕ := 0
  rounds : List Round := []

/-- What `_kill_confirm` returns, and the errors with its own. -/
structure KillConfirmed where
  calls : ℕ
  unconfirmed : ℕ
  retries : ℕ
  accepted : Finset Text
  resolved : Finset Text
  errors : List Text
  rounds : List Round

section

variable {ε : Type} (bkill : ℕ → List Text → Except ε BkillOutcome)
  (requery : ℕ → Finset Text → Except ε Confirmed)

/-- The question to `_confirm_by_query`, if there is one. -/
def askUnknown (attempt : ℕ) (unknown : Finset Text) : Except ε Confirmed :=
  if unknown = ∅ then .ok {} else requery attempt unknown

/-- The two answers, added up. -/
def Progress.absorb (p : Progress) (o : BkillOutcome) (c : Confirmed) : Progress :=
  { p with
    pending := (p.pending \ o.resolved) \ c.gone
    acceptedAll := p.acceptedAll ∪ (o.accepted ∪ c.byKill)
    resolvedAll := p.resolvedAll ∪ (o.resolved ∪ c.gone)
    calls := p.calls + o.calls + c.calls
    rounds := p.rounds ++ [{ sent := p.pending, outcome := o, confirmed := c }] }

/-- One pass of the loop: `bkill_targets_confirm`, and `_confirm_by_query` for what timed out. -/
def confirmRound (p : Progress) : Except ε Progress := do
  let o ← bkill p.attempt (p.pending.sort (· ≤ ·))
  let c ← askUnknown requery p.attempt (o.timedOut ∩ (p.pending \ o.resolved))
  .ok (p.absorb o c)

/-- The loop, with this many retries left. -/
def confirmLoop : ℕ → Progress → Except ε Progress
  | 0, p => confirmRound bkill requery p
  | left + 1, p => do
    let p ← confirmRound bkill requery p
    if p.pending = ∅ then .ok p else confirmLoop left { p with attempt := p.attempt + 1 }

variable (repr : List Text → Text)

/-- The message about the targets that are left. -/
def confirmFailed (pending : Finset Text) (attempt : ℕ) : Text :=
  "kill 확인 실패 ".toList ++ Nat.toDigits 10 pending.card ++ "건 (재시도 ".toList ++
    Nat.toDigits 10 attempt ++ "회 후): ".toList ++ repr ((pending.sort (· ≤ ·)).take 20)

/-- `_kill_confirm`; `repr` is that of a list of strings. -/
def killConfirm (maxRetry : ℕ) (targets errors : List Text) : Except ε KillConfirmed := do
  let p ← confirmLoop bkill requery maxRetry { pending := targets.toFinset }
  .ok
    { calls := p.calls, unconfirmed := p.pending.card, retries := p.attempt
      accepted := p.acceptedAll ∩ p.resolvedAll, resolved := p.resolvedAll
      errors := if p.pending = ∅ then errors else errors ++ [confirmFailed repr p.pending p.attempt]
      rounds := p.rounds }

end

/-! ## What the rounds add up to -/

section

variable {ε : Type} {bkill : ℕ → List Text → Except ε BkillOutcome}
  {requery : ℕ → Finset Text → Except ε Confirmed}

/-- The targets that no round has resolved. -/
def unsettled (targets : Finset Text) (rounds : List Round) : Finset Text :=
  targets.filter fun t => ∀ r ∈ rounds, t ∉ r.settled

/-- **The history of the rounds**: each sends what the ones before it have not resolved, and records
what was answered to just that. -/
structure Happened (bkill : ℕ → List Text → Except ε BkillOutcome)
    (requery : ℕ → Finset Text → Except ε Confirmed) (targets : Finset Text)
    (rounds : List Round) (i : ℕ)
    (r : Round) : Prop where
  sent : r.sent = unsettled targets (rounds.take i)
  outcome : bkill i (r.sent.sort (· ≤ ·)) = .ok r.outcome
  confirmed : askUnknown requery i r.unknown = .ok r.confirmed

/-- **The locals are what the rounds add up to.** -/
structure Progress.Follows (bkill : ℕ → List Text → Except ε BkillOutcome)
    (requery : ℕ → Finset Text → Except ε Confirmed) (targets : Finset Text) (p : Progress) :
    Prop where
  pending : p.pending = unsettled targets p.rounds
  accepted : ∀ t, t ∈ p.acceptedAll ↔ ∃ r ∈ p.rounds, t ∈ r.admitted
  resolved : ∀ t, t ∈ p.resolvedAll ↔ ∃ r ∈ p.rounds, t ∈ r.settled
  calls : p.calls = (p.rounds.map fun r => r.outcome.calls + r.confirmed.calls).sum
  happened : ∀ i r, p.rounds[i]? = some r → Happened bkill requery targets p.rounds i r

variable {targets : Finset Text}

theorem unsettled_concat (rounds : List Round) (r : Round) :
    unsettled targets (rounds ++ [r]) = unsettled targets rounds \ r.settled := by
  ext t
  simp only [unsettled, Finset.mem_filter, Finset.mem_sdiff, List.forall_mem_append,
    List.forall_mem_singleton, and_assoc]

theorem confirmRound_eq {p q : Progress} (h : confirmRound bkill requery p = .ok q) :
    ∃ o c, bkill p.attempt (p.pending.sort (· ≤ ·)) = .ok o ∧
      askUnknown requery p.attempt (o.timedOut ∩ (p.pending \ o.resolved)) =
          .ok c ∧ q = p.absorb o c := by
  rw [confirmRound] at h
  rcases ho : bkill p.attempt (p.pending.sort (· ≤ ·)) with e | o
  · rw [ho] at h
    cases h
  · simp only [ho, bind, Except.bind] at h
    rcases hc : askUnknown requery p.attempt (o.timedOut ∩ (p.pending \ o.resolved)) with e | c
    · rw [hc] at h
      cases h
    · rw [hc] at h
      exact ⟨o, c, rfl, hc, (Except.ok.inj h).symm⟩

/-- **A round** adds itself to the history. -/
theorem confirmRound_follows {p q : Progress} (h : p.Follows bkill requery targets)
    (hattempt : p.rounds.length = p.attempt) (hround : confirmRound bkill requery p = .ok q) :
    q.Follows bkill requery targets ∧ q.attempt = p.attempt ∧ q.rounds.length = q.attempt + 1 := by
  obtain ⟨o, c, ho, hc, rfl⟩ := confirmRound_eq hround
  refine ⟨⟨?_, fun t => ?_, fun t => ?_, ?_, fun i r hi => ?_⟩, rfl,
    by simp [Progress.absorb, hattempt]⟩
  · rw [Progress.absorb, unsettled_concat, ← h.pending, Round.settled, sdiff_sdiff_left]
    rfl
  · simp [Progress.absorb, h.accepted, Round.admitted, or_and_right, exists_or]
  · simp [Progress.absorb, h.resolved, Round.settled, or_and_right, exists_or]
  · simp [Progress.absorb, h.calls, Nat.add_assoc]
  · simp only [Progress.absorb] at hi ⊢
    rcases Nat.lt_or_ge i p.rounds.length with hlt | hge
    · rw [List.getElem?_append_left hlt] at hi
      obtain ⟨hsent, houtcome, hconfirmed⟩ := h.happened i r hi
      exact ⟨by rw [List.take_append_of_le_length hlt.le]; exact hsent, houtcome, hconfirmed⟩
    · rw [List.getElem?_append_right hge, List.getElem?_singleton] at hi
      split at hi
      case isTrue hi0 =>
        obtain rfl := Option.some.inj hi
        obtain rfl : i = p.rounds.length := by omega
        refine ⟨by rw [List.take_left]; exact h.pending, ?_, ?_⟩
        · rw [hattempt]
          exact ho
        · rw [hattempt]
          exact hc
      case isFalse => cases hi

/-- **The loop** makes a round and at most as many more as it has retries; it leaves nothing pending
before. -/
theorem confirmLoop_follows {left : ℕ} {p q : Progress} (h : p.Follows bkill requery targets)
    (hattempt : p.rounds.length = p.attempt) (hloop : confirmLoop bkill requery left p = .ok q) :
    q.Follows bkill requery targets ∧ q.rounds.length = q.attempt + 1 ∧
      q.attempt ≤ p.attempt + left ∧
      (q.pending ≠ ∅ → q.attempt = p.attempt + left) := by
  induction left generalizing p with
  | zero =>
    obtain ⟨hq, heq, hlen⟩ := confirmRound_follows h hattempt hloop
    exact ⟨hq, hlen, heq.le, fun _ => heq⟩
  | succ left ih =>
    rw [confirmLoop] at hloop
    rcases hround : confirmRound bkill requery p with e | p'
    · rw [hround] at hloop
      cases hloop
    obtain ⟨hp', heq, hlen⟩ := confirmRound_follows h hattempt hround
    simp only [hround, bind, Except.bind] at hloop
    split at hloop
    case isTrue hnone =>
      obtain rfl := Except.ok.inj hloop
      exact ⟨hp', hlen, by omega, fun hsome => absurd hnone hsome⟩
    case isFalse =>
      have hnext :
          ({ p' with attempt := p'.attempt + 1 } : Progress).Follows bkill requery targets :=
        ⟨hp'.pending, hp'.accepted, hp'.resolved, hp'.calls, hp'.happened⟩
      obtain ⟨hq, hlen', hle, hall⟩ := ih hnext hlen hloop
      simp only at hle hall
      exact ⟨hq, hlen', by omega, fun hsome => by have := hall hsome; omega⟩

/-- A round ends, if what it asks answers… -/
theorem confirmRound_ends (hbkill : ∀ n ts, ∃ o, bkill n ts = .ok o)
    (hrequery : ∀ n ts, ∃ c, requery n ts = .ok c) (p : Progress) :
    ∃ q, confirmRound bkill requery p = .ok q := by
  obtain ⟨o, ho⟩ := hbkill p.attempt (p.pending.sort (· ≤ ·))
  obtain ⟨c, hc⟩ :
      ∃ c, askUnknown requery p.attempt (o.timedOut ∩ (p.pending \ o.resolved)) = .ok c := by
    rw [askUnknown]
    split
    · exact ⟨_, rfl⟩
    · exact hrequery _ _
  refine ⟨p.absorb o c, ?_⟩
  simp only [confirmRound, ho, hc, bind, Except.bind]

/-- …and so does the loop. -/
theorem confirmLoop_ends (hbkill : ∀ n ts, ∃ o, bkill n ts = .ok o)
    (hrequery : ∀ n ts, ∃ c, requery n ts = .ok c) (left : ℕ) (p : Progress) :
    ∃ q, confirmLoop bkill requery left p = .ok q := by
  induction left generalizing p with
  | zero => exact confirmRound_ends hbkill hrequery p
  | succ left ih =>
    obtain ⟨p', hround⟩ := confirmRound_ends hbkill hrequery p
    simp only [confirmLoop, hround, bind, Except.bind]
    split
    · exact ⟨_, rfl⟩
    · exact ih _

theorem follows_start (targets : Finset Text) :
    ({ pending := targets } : Progress).Follows bkill requery targets :=
  ⟨by simp [unsettled], by simp, by simp, rfl, by simp⟩

theorem killConfirm_eq {repr : List Text → Text} {maxRetry : ℕ} {targets errors : List Text}
    {r : KillConfirmed} (h : killConfirm bkill requery repr maxRetry targets errors = .ok r) :
    ∃ p : Progress, p.Follows bkill requery targets.toFinset ∧ p.rounds.length = p.attempt + 1 ∧
      p.attempt ≤ maxRetry ∧ (p.pending ≠ ∅ → p.attempt = maxRetry) ∧
      r = { calls := p.calls, unconfirmed := p.pending.card, retries := p.attempt
            accepted := p.acceptedAll ∩ p.resolvedAll, resolved := p.resolvedAll
            errors :=
              if p.pending = ∅ then errors else errors ++ [confirmFailed repr p.pending p.attempt]
            rounds := p.rounds } := by
  rw [killConfirm] at h
  rcases hloop : confirmLoop bkill requery maxRetry { pending := targets.toFinset } with e | p
  · rw [hloop] at h
    cases h
  · rw [hloop] at h
    obtain ⟨hp, hlen, hle, hall⟩ := confirmLoop_follows (follows_start _) rfl hloop
    exact ⟨p, hp, hlen, by simpa using hle, by simpa using hall, (Except.ok.inj h).symm⟩

/-- What is resolved in a round is in no later one. -/
theorem pairwise_settled_sent {targets : Finset Text} {rounds : List Round}
    (h : ∀ i r, rounds[i]? = some r → Happened bkill requery targets rounds i r) :
    rounds.Pairwise fun a b => Disjoint a.settled b.sent := by
  rw [List.pairwise_iff_getElem]
  intro i j hi hj hij
  rw [Finset.disjoint_right]
  intro t ht
  rw [(h j _ (List.getElem?_eq_getElem hj)).sent, unsettled, Finset.mem_filter] at ht
  refine ht.2 _ ?_
  rw [List.mem_take_iff_getElem]
  exact ⟨i, by omega, rfl⟩

/-- **The confirmation of a kill ends and is exact**, whatever every `bkill` and every query answer:
there are at most `maxRetry + 1` rounds, each sends the distinct targets that no round before it has
resolved, and records what was answered to that; the unconfirmed ones are those that no round has
resolved, and there is a message if there are any, after the last retry; and what is accepted was
accepted in some round and resolved in some round.  It returns if the commands and the queries
do. -/
theorem killConfirm_exact {ε : Type} (bkill : ℕ → List Text → Except ε BkillOutcome)
    (requery : ℕ → Finset Text → Except ε Confirmed) (repr : List Text → Text) (maxRetry : ℕ)
    (targets errors : List Text) :
    ((∀ n ts, ∃ o, bkill n ts = .ok o) → (∀ n ts, ∃ c, requery n ts = .ok c) →
      ∃ r, killConfirm bkill requery repr maxRetry targets errors = .ok r) ∧
    ∀ r, killConfirm bkill requery repr maxRetry targets errors = .ok r →
      r.rounds.length = r.retries + 1 ∧ r.rounds.length ≤ maxRetry + 1 ∧
      (0 < r.unconfirmed → r.retries = maxRetry) ∧
      (∀ i round, r.rounds[i]? = some round →
        Happened bkill requery targets.toFinset r.rounds i round) ∧
      (r.rounds.Pairwise fun a b => Disjoint a.settled b.sent) ∧
      r.unconfirmed = (unsettled targets.toFinset r.rounds).card ∧
      (r.errors = if 0 < r.unconfirmed
        then errors ++ [confirmFailed repr (unsettled targets.toFinset r.rounds) r.retries]
          else errors) ∧
      (∀ t, t ∈ r.accepted ↔
        (∃ round ∈ r.rounds, t ∈ round.admitted) ∧ ∃ round ∈ r.rounds, t ∈ round.settled) ∧
      (∀ t, t ∈ r.resolved ↔ ∃ round ∈ r.rounds, t ∈ round.settled) ∧
      r.calls = (r.rounds.map fun round => round.outcome.calls + round.confirmed.calls).sum := by
  refine ⟨fun hbkill hrequery => ?_, fun r hr => ?_⟩
  · obtain ⟨p, hp⟩ := confirmLoop_ends hbkill hrequery maxRetry { pending := targets.toFinset }
    simp only [killConfirm, hp, bind, Except.bind]
    exact ⟨_, rfl⟩
  · obtain ⟨p, hp, hlen, hle, hall, rfl⟩ := killConfirm_eq hr
    refine ⟨hlen, by simp [hlen, hle], fun hpos => hall (Finset.card_pos.mp hpos).ne_empty,
      hp.happened, pairwise_settled_sent hp.happened,
      by rw [hp.pending], ?_, fun t => ?_, hp.resolved, hp.calls⟩
    · rw [← hp.pending]
      simp only [Finset.card_pos, Finset.nonempty_iff_ne_empty, ne_eq, ite_not]
    · rw [Finset.mem_inter, hp.accepted, hp.resolved]

/-- A target that is accepted at first and resolved by the retry. -/
theorem killConfirm_exact_retry :
    ∃ r : KillConfirmed,
      killConfirm (ε := Unit)
        (fun n ts => .ok (if n = 0 then { accepted := ts.toFinset, calls := 1 }
          else { resolved := ts.toFinset, calls := 1 }))
        (fun _ _ => .ok {}) (fun _ => []) 2 ["7".toList] [] = .ok r ∧
      r.rounds.length ≤ 3 ∧ r.unconfirmed = (unsettled ["7".toList].toFinset r.rounds).card := by
  obtain ⟨hends, hexact⟩ := killConfirm_exact (ε := Unit)
    (fun n ts => .ok (if n = 0 then { accepted := ts.toFinset, calls := 1 }
      else { resolved := ts.toFinset, calls := 1 }))
    (fun _ _ => .ok {}) (fun _ => []) 2 ["7".toList] []
  obtain ⟨r, hr⟩ := hends (fun _ _ => ⟨_, rfl⟩) (fun _ _ => ⟨_, rfl⟩)
  obtain ⟨-, hlen, -, -, -, hun, -⟩ := hexact r hr
  exact ⟨r, hr, hlen, hun⟩

end

end Lsfmgr.Kill
