import Mathlib
import Lsfmgr.Status.Bookkeeping

/-!
# Status/Fresh — how new the fetch behind an answer is

A caller reads `lastFetchAt` under the lock, and `lastFetchAt` is the start of a merged fetch or `⊥`
(`Sighted.last`).  So a caller that finds it at `minAt` or later has its fetch.  A caller that
waited compares it with what it was before: if it is greater now, a fetch has been merged meanwhile
(`CallerOk`, at `waiting`), which is all a cached call asks for.
-/

namespace Lsfmgr.Status

open Machinery

/-- The terms are those of the call. -/
structure Caller.SetOut (c : Caller) (p : Terms) : Prop where
  fresh : p.fresh = (c.fresh || c.wasNew)
  began : c.began ≤ p.started
  minAt : p.minAt = if p.fresh then p.started else p.started - c.refresh

/-- The fetch that `_ensure_fetched` returned `True` for is among the first `upTo` ones: one that is
new enough or, unless the call is fresh, one merged after the first `n`. -/
structure Served (merged : List (ℤ × Finset ℕ)) (p : Terms) (n upTo : ℕ) : Prop where
  le : upTo ≤ merged.length
  fetch : (∃ f ∈ merged.take upTo, p.minAt ≤ f.1) ∨ p.fresh = false ∧ n < upTo

/-- What a caller may rely on, from the fetches merged and the clock of the last success. -/
def CallerOk (merged : List (ℤ × Finset ℕ)) (last : WithBot ℤ) (c : Caller) : Prop :=
  match c.stage with
  | .registered fresh => fresh = (c.fresh || c.wasNew)
  | .ensuring p => c.SetOut p
  | .waiting p before _ n => c.SetOut p ∧ n ≤ merged.length ∧ (before < last → n < merged.length)
  | .fetched p n upTo | .answered p _ n upTo => c.SetOut p ∧ Served merged p n upTo
  | _ => True

/-- The clock of the last success is that of a merged fetch, and the callers know what they may. -/
structure Sighted (s : State) : Prop where
  last : ∀ x : ℤ, s.src.lastFetchAt = x → ∃ f ∈ s.merged, f.1 = x
  began : ∀ c ∈ s.callers, c.began ≤ s.clock
  callers : ∀ c ∈ s.callers, CallerOk s.merged s.src.lastFetchAt c

theorem sighted_init (o : Options) : Sighted { src := o.source } where
  last x hx := by cases hx
  began c hc := by cases hc
  callers c hc := by cases hc

section

variable {o : Options} {s s' : State} {merged merged' : List (ℤ × Finset ℕ)}
    {last last' : WithBot ℤ}
  {c c' : Caller} {j : ℕ} {p : Terms} {r : Reads}

/-! ## What the fetches change for a caller -/

theorem Served.mono {n upTo : ℕ} (h : Served merged p n upTo) (hm : merged <+: merged') :
    Served merged' p n upTo := by
  obtain ⟨rest, rfl⟩ := hm
  refine ⟨h.le.trans (by simp), ?_⟩
  rw [List.take_append_of_le_length h.le]
  exact h.fetch

/-- The clock of the last success rises only with a merge. -/
theorem CallerOk.mono (h : CallerOk merged last c) (hm : merged <+: merged')
    (hlast : last' ≤ last ∨ merged.length < merged'.length) : CallerOk merged' last' c := by
  obtain ⟨ids, fresh, began, wasNew, refresh, stage⟩ := c
  cases stage with
  | waiting p before gen n =>
    obtain ⟨hset, hn, hrise⟩ := h
    refine ⟨hset, hn.trans hm.length_le, fun hlt => ?_⟩
    rcases hlast with hle | hmore
    · exact lt_of_lt_of_le (hrise (hlt.trans_le hle)) hm.length_le
    · exact lt_of_le_of_lt hn hmore
  | fetched p n upTo => exact ⟨h.1, h.2.mono hm⟩
  | answered p rows n upTo => exact ⟨h.1, h.2.mono hm⟩
  | _ => exact h

/-- A step of the fetches, of the clock, or of the other operations. -/
theorem Sighted.world (h : Sighted s) (hc : s'.callers = s.callers) (hclock : s.clock ≤ s'.clock)
    (hm : s.merged <+: s'.merged)
    (hrise : s'.src.lastFetchAt ≤ s.src.lastFetchAt ∨ s.merged.length < s'.merged.length)
    (hlast : ∀ x : ℤ, s'.src.lastFetchAt = x → ∃ f ∈ s'.merged, f.1 = x) : Sighted s' where
  last := hlast
  began c hmem := (h.began c (hc ▸ hmem)).trans hclock
  callers c hmem := (h.callers c (hc ▸ hmem)).mono hm hrise

/-- A step that leaves the fetches alone. -/
theorem Sighted.frame (h : Sighted s) (hc : s'.callers = s.callers) (hclock : s.clock ≤ s'.clock)
    (hm : s'.merged = s.merged) (hl : s'.src.lastFetchAt = s.src.lastFetchAt) : Sighted s' :=
  h.world hc hclock (hm ▸ List.prefix_rfl) (.inl hl.le) (hl ▸ hm ▸ h.last)

/-- A step of one caller. -/
theorem Sighted.caller (h : Sighted s) (c' : Caller) (hj : s.callers[j]? = some c)
    (hc : s'.callers = replaceAt s.callers j [c']) (hclock : s.clock ≤ s'.clock)
    (hm : s'.merged = s.merged) (hl : s'.src.lastFetchAt = s.src.lastFetchAt)
    (hbegan : c'.began = c.began) (hok : CallerOk s.merged s.src.lastFetchAt c') : Sighted s' where
  last := hl ▸ hm ▸ h.last
  began x hx := by
    rcases mem_replaceAt (hc ▸ hx) with hx | hx
    · exact (h.began x hx).trans hclock
    · rw [List.mem_singleton.mp hx, hbegan]
      exact (h.began c (List.mem_of_getElem? hj)).trans hclock
  callers x hx := by
    rw [hm, hl]
    rcases mem_replaceAt (hc ▸ hx) with hx | hx
    · exact h.callers x hx
    · rw [List.mem_singleton.mp hx]
      exact hok

/-! ## The callers -/

theorem Reads.After.le_note (h : r.After s.clock) : s.clock ≤ r.note :=
  h.1.trans (h.2.1.trans (h.2.2.1.trans h.2.2.2))

theorem Sighted.putOff (h : Sighted s) (hj : s.callers[j]? = some c) (hr : r.After s.clock) :
    Sighted (s.putOff j c r) :=
  h.caller { c with stage := .failed } hj rfl hr.le_note rfl
    (Source.noteOutcome_frame _ _ _ _).2.2 rfl trivial

theorem Sighted.await (h : Sighted s) (hj : s.callers[j]? = some c) (hset : c.SetOut p)
    (hr : r.After s.clock) : Sighted (s.await j c p r) := by
  rw [State.await]
  split
  · exact h.putOff hj hr
  · exact h.caller { c with stage := .waiting p s.src.lastFetchAt s.src.gen s.merged.length }
      hj rfl hr.le_note rfl rfl rfl
      ⟨⟨hset.fresh, hset.began, hset.minAt⟩, le_rfl, fun hlt => absurd hlt (lt_irrefl _)⟩

theorem launch_frame (s : State) (r : Reads) (startOk : Bool) :
    (s.launch o r startOk).callers = s.callers ∧ (s.launch o r startOk).clock = s.clock ∧
      (s.launch o r startOk).merged = s.merged ∧
      (s.launch o r startOk).src.lastFetchAt = s.src.lastFetchAt := by
  rcases startOk with _ | _ <;> exact ⟨rfl, rfl, rfl, rfl⟩

/-- A caller that finds the clock of the last success at `minAt` or later has its fetch. -/
theorem Sighted.served (h : Sighted s) (hmin : (p.minAt : WithBot ℤ) ≤ s.src.lastFetchAt) (n : ℕ) :
    Served s.merged p n s.merged.length := by
  obtain ⟨x, hx⟩ : ∃ x : ℤ, s.src.lastFetchAt = x := by
    cases hlast : s.src.lastFetchAt with
    | bot => rw [hlast] at hmin; exact absurd hmin (by simp)
    | coe x => exact ⟨x, rfl⟩
  obtain ⟨f, hf, rfl⟩ := h.last x hx
  rw [hx, WithBot.coe_le_coe] at hmin
  exact ⟨le_rfl, .inl ⟨f, by rwa [List.take_length], hmin⟩⟩

theorem Sighted.round (h : Sighted s) (hj : s.callers[j]? = some c) (hset : c.SetOut p)
    (hr : r.After s.clock) (startOk : Bool) : Sighted (s.round o j c p r startOk) := by
  obtain ⟨hcallers, hclock, hmerged, hlast⟩ := launch_frame (o := o) s r startOk
  have hlaunch : Sighted (s.launch o r startOk) := h.frame hcallers hclock.ge hmerged hlast
  rw [State.round]
  split
  · exact h.caller { c with stage := .failed } hj rfl le_rfl rfl rfl rfl trivial
  · split
    case isTrue hmin =>
      exact h.caller { c with stage := .fetched p s.merged.length s.merged.length } hj rfl
        le_rfl rfl rfl rfl ⟨⟨hset.fresh, hset.began, hset.minAt⟩, h.served hmin _⟩
    case isFalse =>
      split
      case h_1 => exact h.putOff hj hr
      case h_2 => exact h.await hj hset hr
      case h_3 =>
        dsimp only
        split
        · exact hlaunch.await (hcallers ▸ hj) hset (hclock ▸ hr)
        · exact h.caller { c with stage := .raised } hj
            (by rw [State.setCaller, ← hcallers]) hr.le_note hmerged hlast rfl trivial

theorem Sighted.wake (h : Sighted s) (hj : s.callers[j]? = some c) {before : WithBot ℤ} {gen n : ℕ}
    (hstage : c.stage = .waiting p before gen n) (hr : r.After s.clock) (notified startOk : Bool) :
    Sighted (s.wake o j c p before gen n notified r startOk) := by
  have hok := h.callers c (List.mem_of_getElem? hj)
  simp only [CallerOk, hstage] at hok
  obtain ⟨hset, -, hrise⟩ := hok
  rw [State.wake]
  split
  · exact h.putOff hj hr
  · split
    · exact h.caller { c with stage := .failed } hj rfl le_rfl rfl rfl rfl trivial
    · split
      · exact h.round hj hset hr startOk
      · split
        · exact h.caller { c with stage := .failed } hj rfl le_rfl rfl rfl rfl trivial
        case isFalse hmore =>
          -- a fetch has been merged while the caller waited
          have hn : n < s.merged.length := hrise (not_le.mp hmore)
          split
          case isTrue hgood =>
            refine h.caller { c with stage := .fetched p n s.merged.length } hj rfl le_rfl
              rfl rfl rfl ⟨⟨hset.fresh, hset.began, hset.minAt⟩, ?_⟩
            rcases hgood with hmin | hcached
            · exact h.served hmin n
            · exact ⟨le_rfl, .inr ⟨by simpa using hcached, hn⟩⟩
          case isFalse => exact h.round hj hset hr startOk

theorem Sighted.ask (h : Sighted s) (hj : s.callers[j]? = some c) {a : Act}
    (hs : s.ask o j c a = some s') : Sighted s' := by
  have hok := h.callers c (List.mem_of_getElem? hj)
  have hbegan := h.began c (List.mem_of_getElem? hj)
  cases a with
  | register =>
    simp only [State.ask] at hs
    split at hs
    case h_1 =>
      obtain rfl := Option.some.inj hs
      exact h.caller { c with
          wasNew := (s.src.registerInterest c.ids).1
          stage := .registered (c.fresh || (s.src.registerInterest c.ids).1) }
        hj rfl le_rfl rfl rfl rfl rfl
    case h_2 => cases hs
  | setOut =>
    simp only [State.ask] at hs
    split at hs
    case h_1 fresh hstage =>
      obtain rfl := Option.some.inj hs
      simp only [CallerOk, hstage] at hok
      exact h.caller { c with
          refresh := s.src.refreshMinS
          stage := .ensuring
            { fresh, started := s.clock
              minAt := if fresh then s.clock else s.clock - s.src.refreshMinS
              deadline := s.clock + o.waitTimeout } }
        hj rfl le_rfl rfl rfl rfl ⟨hok, hbegan, rfl⟩
    case h_2 => cases hs
  | check =>
    simp only [State.ask] at hs
    split at hs
    case h_1 hstage =>
      simp only [CallerOk, hstage] at hok
      split at hs
      case isTrue hr => obtain rfl := Option.some.inj hs; exact h.round hj hok hr _
      case isFalse => cases hs
    case h_2 => cases hs
  | wake =>
    simp only [State.ask] at hs
    split at hs
    case h_1 hstage =>
      split at hs
      case isTrue hr => obtain rfl := Option.some.inj hs; exact h.wake hj hstage hr _ _
      case isFalse => cases hs
    case h_2 => cases hs
  | read =>
    simp only [State.ask] at hs
    split at hs
    case h_1 p n upTo hstage =>
      obtain rfl := Option.some.inj hs
      simp only [CallerOk, hstage] at hok
      exact h.caller { c with
          stage := .answered p (s.src.statuses c.ids) n upTo } hj rfl le_rfl rfl rfl rfl
        ⟨⟨hok.1.fresh, hok.1.began, hok.1.minAt⟩, hok.2⟩
    case h_2 => cases hs
  | _ => cases hs

/-! ## The fetches -/

theorem finish_lastFetchAt (o : Options) (src : Source) (token : ℕ) (fetchAt : ℤ) (now : Time)
    (statuses : Option (List JobStatus)) (served : Bool) :
    (src.finish o token fetchAt now statuses served).lastFetchAt
      = if statuses.isSome then max src.lastFetchAt fetchAt else src.lastFetchAt := by
  rw [Source.finish, (Source.noteOutcome_frame _ _ _ _).2.2, (Source.land_frame _ _).2.2.1]
  exact (Source.takeIn_frame o { src with inflight := src.inflight - 1 } fetchAt now statuses).1

theorem Sighted.finish (h : Sighted s) {i : ℕ} {w : Worker} {outcome : Outcome} {served : Bool} :
    Sighted { s with
      src := s.src.finish o w.token w.fetchAt w.now outcome.statuses? served
      workers := replaceAt s.workers i []
      merged := match outcome with
        | .rows keep _ => s.merged ++ [(w.fetchAt, keep)]
        | _ => s.merged } := by
  have hlast := finish_lastFetchAt o s.src w.token w.fetchAt w.now outcome.statuses? served
  cases outcome with
  | rows keep statuses =>
    simp only [Outcome.statuses?, Option.isSome_some, if_true] at hlast
    refine h.world rfl le_rfl (List.prefix_append _ _) (.inr (by simp)) fun x hx => ?_
    replace hx : max s.src.lastFetchAt (w.fetchAt : WithBot ℤ) = x := hlast.symm.trans hx
    rcases max_choice s.src.lastFetchAt (w.fetchAt : WithBot ℤ) with hmax | hmax
    · obtain ⟨f, hf, hfx⟩ := h.last x (hmax.symm.trans hx)
      exact ⟨f, List.mem_append_left _ hf, hfx⟩
    · exact ⟨_, List.mem_append_right _ List.mem_cons_self,
        WithBot.coe_injective (hmax.symm.trans hx)⟩
  | failed => exact h.frame rfl le_rfl rfl hlast
  | aborted => exact h.frame rfl le_rfl rfl hlast

theorem Sighted.fetch (h : Sighted s) {i : ℕ} {w : Worker} {a : Act}
    (hs : s.fetch o i w a = some s') : Sighted s' := by
  have hnext : ∀ a, (State.nextStage s.src.interest w a).map (s.setWorker i w) = some s' →
      Sighted s' := by
    intro a ha
    obtain ⟨stage, -, rfl⟩ := Option.map_eq_some_iff.mp ha
    exact h.frame rfl le_rfl rfl rfl
  cases a with
  | begin | count =>
    simp only [State.fetch] at hs
    split at hs <;> try split at hs
    all_goals first
      | (cases hs; done)
      | (obtain rfl := Option.some.inj hs; exact h.frame rfl le_rfl rfl rfl)
  | uncount =>
    simp only [State.fetch] at hs
    split at hs
    · split at hs
      all_goals
        obtain rfl := Option.some.inj hs
        exact h.frame rfl le_rfl rfl rfl
    · cases hs
  | finish =>
    simp only [State.fetch] at hs
    split at hs
    · obtain rfl := Option.some.inj hs
      exact h.finish
    · cases hs
  | call k => exact hnext (.call k) hs
  | «return» k => exact hnext (.return k) hs
  | raise k aborted => exact hnext (.raise k aborted) hs
  | parse k rows => exact hnext (.parse k rows) hs
  | _ => cases hs

/-! ## Every run -/

theorem Sighted.step (h : Sighted s) {a : Act} (hs : s.step o a = some s') : Sighted s' := by
  have hask : ∀ j a, (s.callers[j]?.bind fun c => s.ask o j c a) = some s' → Sighted s' := by
    intro j a ha
    obtain ⟨c, hj, ha⟩ := Option.bind_eq_some_iff.mp ha
    exact h.ask hj ha
  have hfetch : ∀ i a, (s.workers[i]?.bind fun w => s.fetch o i w a) = some s' → Sighted s' := by
    intro i a ha
    obtain ⟨w, -, ha⟩ := Option.bind_eq_some_iff.mp ha
    exact h.fetch ha
  cases a with
  | tick clock =>
    simp only [State.step] at hs
    split at hs
    case isTrue hle => obtain rfl := Option.some.inj hs; exact h.frame rfl hle rfl rfl
    case isFalse => cases hs
  | ask ids fresh =>
    simp only [State.step] at hs
    split at hs
    · cases hs
    · obtain rfl := Option.some.inj hs
      refine ⟨h.last, fun c hc => ?_, fun c hc => ?_⟩
      · rcases List.mem_cons.mp hc with rfl | hc
        · exact le_rfl
        · exact h.began c hc
      · rcases List.mem_cons.mp hc with rfl | hc
        · trivial
        · exact h.callers c hc
  | invalidate =>
    obtain rfl := Option.some.inj hs
    exact h.world rfl le_rfl List.prefix_rfl (.inl bot_le) fun x hx => by cases hx
  | forget | shutdown =>
    obtain rfl := Option.some.inj hs
    exact h.frame rfl le_rfl rfl rfl
  | notePollInterval intervalS =>
    obtain rfl := Option.some.inj hs
    refine h.frame rfl le_rfl rfl ?_
    simp only [Source.notePollInterval]
    split <;> rfl
  | register j => exact hask j _ hs
  | setOut j => exact hask j _ hs
  | check j => exact hask j _ hs
  | wake j => exact hask j _ hs
  | read j => exact hask j _ hs
  | begin i => exact hfetch i _ hs
  | count i => exact hfetch i _ hs
  | call i => exact hfetch i _ hs
  | «return» i => exact hfetch i _ hs
  | raise i => exact hfetch i _ hs
  | parse i => exact hfetch i _ hs
  | uncount i => exact hfetch i _ hs
  | finish i => exact hfetch i _ hs

theorem sighted (h : (system o).Reachable s) : Sighted s :=
  h.invariant (fun _ hs => hs ▸ sighted_init o) fun _ _ _ _ hI _ hs => hI.step hs

/-- The fetches behind the answer to a call, among the `upTo` ones merged when it read the ledger;
`n` of them when it last began to wait. -/
structure Backed (merged : List (ℤ × Finset ℕ)) (c : Caller) (n upTo : ℕ) : Prop where
  le : upTo ≤ merged.length
  /-- A fresh call, or one with an id that was not of interest yet. -/
  fresh : c.fresh = true ∨ c.wasNew = true → ∃ f ∈ merged.take upTo, c.began ≤ f.1
  /-- A cached call; with an id new to the source it is fetched for as a fresh one is, which is more
  unless the interval is negative. -/
  cached : c.fresh = false → c.wasNew = false ∨ 0 ≤ c.refresh →
    (∃ f ∈ merged.take upTo, c.began - c.refresh ≤ f.1) ∨ n < upTo

/-- **A fresh call is answered by a fetch started after the call** and merged before the ledger was
read.  The fetch behind a cached answer started no earlier than the refresh interval before the
call, or was merged while the call waited. -/
theorem answer_backed (h : (system o).Reachable s) (hc : c ∈ s.callers) {rows : List JobStatus}
    {n upTo : ℕ} (hstage : c.stage = .answered p rows n upTo) : Backed s.merged c n upTo := by
  have hok := (sighted h).callers c hc
  simp only [CallerOk, hstage] at hok
  obtain ⟨hset, hle, hfetch⟩ := hok
  have hbegan := hset.began
  have hminAt := hset.minAt
  have hfresh : c.fresh = true ∨ c.wasNew = true → ∃ f ∈ s.merged.take upTo, c.began ≤ f.1 := by
    intro hfresh
    have hp : p.fresh = true := by rw [hset.fresh]; simpa using hfresh
    rw [hp, if_pos rfl] at hminAt
    rcases hfetch with ⟨f, hf, hmin⟩ | ⟨hcached, -⟩
    · exact ⟨f, hf, by omega⟩
    · rw [hp] at hcached
      cases hcached
  refine ⟨hle, hfresh, fun hcached hinterval => ?_⟩
  rcases hnew : c.wasNew with _ | _
  · have hp : p.fresh = false := by rw [hset.fresh, hcached, hnew]; rfl
    rw [hp] at hminAt
    rcases hfetch with ⟨f, hf, hmin⟩ | ⟨-, hn⟩
    · exact .inl ⟨f, hf, by simp only [Bool.false_eq_true, if_false] at hminAt; omega⟩
    · exact .inr hn
  · obtain ⟨f, hf, hle⟩ := hfresh (.inr hnew)
    have hpos : 0 ≤ c.refresh := hinterval.resolve_left (by rw [hnew]; decide)
    exact .inl ⟨f, hf, by omega⟩

/-- A fresh call that joins the fetch of another, started before it, has one more fetch made. -/
def joined : List Act :=
  let at₀ : Reads := ⟨0, 0, 0, 0⟩
  let at₁ : Reads := ⟨second, second, second, second⟩
  let at₂ : Reads := ⟨2 * second, 2 * second, 2 * second, 2 * second⟩
  let body (i : ℕ) : List Act := [.count i, .call i, .«return» i, .parse i (some []), .uncount i,
    .finish i]
  [.ask [7] false, .register 0, .setOut 0, .check 0 at₀ true, .begin 0 0,
    .tick second, .ask [7] true, .register 0, .setOut 0, .check 0 at₁ true] ++ body 0 ++
  [.tick (2 * second), .wake 0 true at₂ true, .begin 0 0] ++ body 0 ++
  [.wake 0 true at₂ true, .read 0]

theorem answer_backed_joined :
    let o : Options := { failover := false, refreshMinS := none, waitTimeoutS := 5 * second }
    ∃ s c n upTo, (system o).run { src := o.source } joined = some s ∧ s.callers[0]? = some c ∧
      c.began = second ∧ s.merged.map (·.1) = [0, 2 * second] ∧ Backed s.merged c n upTo := by
  intro o
  have hrun : ((system o).run { src := o.source } joined).bind (fun s => s.callers[0]?.bind fun c =>
      match c.stage with
      | .answered _ _ _ _ =>
        if c.began = second ∧ s.merged.map (·.1) = [0, 2 * second] then some () else none
      | _ => none) = some () := by decide +kernel
  obtain ⟨s, hs, hrest⟩ := Option.bind_eq_some_iff.mp hrun
  obtain ⟨c, hc, hrest⟩ := Option.bind_eq_some_iff.mp hrest
  split at hrest
  case h_1 p rows n upTo hstage =>
    obtain ⟨⟨hbegan, hmerged⟩, -⟩ := Option.ite_none_right_eq_some.mp hrest
    exact ⟨s, c, n, upTo, hs, hc, hbegan, hmerged,
      answer_backed (System.reachable_of_run (.init rfl) hs) (List.mem_of_getElem? hc) hstage⟩
  case h_2 => cases hrest

end

end Lsfmgr.Status
