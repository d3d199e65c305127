import Mathlib
import Lsfmgr.Lifecycle.Gate
import Lsfmgr.Machinery.Pool

/-!
# Lifecycle/Barriers — a barrier stands exactly as long as its kill

The barriers of a jobset are the scopes of the kills that have begun and have not been released, its
activities the registered submissions that have not been unregistered (`GateInv`).  What a
registration is refused follows, and that without a kill in flight nothing is.
-/

namespace Lsfmgr.Lifecycle

open Machinery
open Submit (Key Scope)

/-- The barrier of the kill is up. -/
def Kill.holds (k : Kill) : Bool :=
  match k.phase with
  | .begun | .queued | .running | .releasing => true
  | .created | .ended => false

/-- The scopes of the kills of a jobset that have begun and have not been released. -/
def heldScopes (js : String) (kills : List Kill) : List ScopeObject :=
  (kills.filter fun k => k.scope.jobset = js ∧ k.holds).map (·.scope.keys)

/-- The registered submissions of a jobset that have not been unregistered. -/
def liveTokens (js : String) (cycles : List Cycle) : List ℕ :=
  cycles.filterMap fun c => if c.jobset = js ∧ c.live then c.token else none

theorem liveTokens_split (js : String) (pre post : List Cycle) (cyc : Cycle) :
    liveTokens js (pre ++ cyc :: post) = liveTokens js pre
      ++ ((if cyc.jobset = js ∧ cyc.live then cyc.token else none).toList ++
          liveTokens js post) := by
  rw [liveTokens, List.filterMap_append, List.filterMap_cons, ← liveTokens, ← liveTokens]
  split
  case h_1 hnone => rw [hnone]; rfl
  case h_2 hsome => rw [hsome]; rfl

/-- How often a kill has raised its barrier… -/
def Phase.ups : Phase → ℕ
  | created => 0
  | _ => 1

/-- …and taken it down. -/
def Phase.downs : Phase → ℕ
  | ended => 1
  | _ => 0

/-- What one kill has up at a jobset. -/
def Kill.own (js : String) (k : Kill) : Multiset ScopeObject :=
  if k.scope.jobset = js ∧ k.holds then {k.scope.keys} else 0

theorem heldScopes_eq_sum (js : String) (kills : List Kill) :
    (heldScopes js kills : Multiset ScopeObject) = (kills.map (Kill.own js)).sum := by
  induction kills with
  | nil => rfl
  | cons k kills ih =>
    rw [List.map_cons, List.sum_cons, ← ih, heldScopes, List.filter_cons, Kill.own]
    split
    case isTrue h =>
      rw [if_pos (by simpa using h), List.map_cons, ← Multiset.cons_coe, Multiset.singleton_add]
      rfl
    case isFalse h =>
      rw [if_neg (by simpa using h), zero_add]
      rfl

/-- What is up moves by what the one kill has up. -/
theorem heldScopes_set (js : String) {kills : List Kill} {i : ℕ} {k k' : Kill}
    (h : kills[i]? = some k) :
    (heldScopes js (kills.set i k') : Multiset ScopeObject) + k.own js
      = heldScopes js kills + k'.own js := by
  rw [heldScopes_eq_sum, heldScopes_eq_sum, set_eq_replaceAt h, sum_replaceAt _ h]
  simp

/-- What holds of the gate in every reachable state. -/
structure GateInv (s : State) : Prop where
  captured : ∀ k ∈ s.kills, k.scope.acts.isSome = true ↔
    k.phase = .begun ∨ k.phase = .queued ∨ k.phase = .running
  identity : ∀ k ∈ s.kills, ∀ k' ∈ s.kills, k.scope.keys.1 = k'.scope.keys.1 →
    k.scope.keys = k'.scope.keys
  barriers : ∀ js, (s.gate.barriers.listAt js : Multiset ScopeObject) = heldScopes js s.kills
  tokens : ∀ (c : ℕ) (cyc : Lifecycle.Cycle), s.cycles[c]? = some cyc → ∀ a ∈ cyc.token, a = c
  activities : ∀ js, s.gate.activities.listAt js = liveTokens js s.cycles
  ups : ∀ i, s.log.count (.up i) = (s.kills[i]?.map (·.phase.ups)).getD 0
  downs : ∀ i, s.log.count (.down i) = (s.kills[i]?.map (·.phase.downs)).getD 0

namespace GateInv

variable {s : State} {i : ℕ} {k : Kill}

/-- One kill has moved on. -/
theorem setKill (h : GateInv s) (hk : s.kills[i]? = some k) {k' : Kill} {gate : SubmitGate}
    {log : List GateOp} (hkeys : k'.scope.keys = k.scope.keys)
    (hcaptured : k'.scope.acts.isSome = true ↔
      k'.phase = .begun ∨ k'.phase = .queued ∨ k'.phase = .running)
    (hbarriers : ∀ js, (gate.barriers.listAt js : Multiset ScopeObject) + k.own js
      = s.gate.barriers.listAt js + k'.own js)
    (hact : gate.activities = s.gate.activities)
    (hups : ∀ j, log.count (.up j) + (if j = i then k.phase.ups else 0)
      = s.log.count (.up j) + if j = i then k'.phase.ups else 0)
    (hdowns : ∀ j, log.count (.down j) + (if j = i then k.phase.downs else 0)
      = s.log.count (.down j) + if j = i then k'.phase.downs else 0) :
    GateInv { s with gate, kills := s.kills.set i k', log } := by
  have hlt := (List.getElem?_eq_some_iff.mp hk).1
  have hmem := List.mem_of_getElem? hk
  refine ⟨fun q hq => ?_, fun q hq q' hq' => ?_, fun js => ?_, h.tokens,
    by rw [hact]; exact h.activities, fun j => ?_, fun j => ?_⟩
  · rcases List.mem_or_eq_of_mem_set hq with hq | rfl
    · exact h.captured q hq
    · exact hcaptured
  · rcases List.mem_or_eq_of_mem_set hq with hq | hq <;>
      rcases List.mem_or_eq_of_mem_set hq' with hq' | hq'
    · exact h.identity q hq q' hq'
    · rw [hq', hkeys]; exact h.identity q hq k hmem
    · rw [hq, hkeys]; exact h.identity k hmem q' hq'
    · rw [hq, hq']; exact fun _ => rfl
  · refine add_right_cancel (b := k.own js) ?_
    rw [hbarriers js, heldScopes_set js hk, h.barriers js]
  · have hj := hups j
    rw [h.ups j] at hj
    rw [List.getElem?_set]
    by_cases hji : j = i
    · subst hji
      simp only [hk, Option.map_some, Option.getD_some, if_true] at hj
      simp only [hlt, if_true, Option.map_some, Option.getD_some]
      omega
    · simpa [hji, Ne.symm hji] using hj
  · have hj := hdowns j
    rw [h.downs j] at hj
    rw [List.getElem?_set]
    by_cases hji : j = i
    · subst hji
      simp only [hk, Option.map_some, Option.getD_some, if_true] at hj
      simp only [hlt, if_true, Option.map_some, Option.getD_some]
      omega
    · simpa [hji, Ne.symm hji] using hj

/-- A step of a kill that leaves the gate alone. -/
theorem setKill_same (h : GateInv s) (hk : s.kills[i]? = some k) {k' : Kill}
    (hscope : k'.scope.keys = k.scope.keys ∧ k'.scope.jobset = k.scope.jobset)
    (hcaptured : k'.scope.acts.isSome = true ↔
      k'.phase = .begun ∨ k'.phase = .queued ∨ k'.phase = .running)
    (hholds : k'.holds = k.holds) (hups : k'.phase.ups = k.phase.ups)
    (hdowns : k'.phase.downs = k.phase.downs) : GateInv (s.setKill i k') := by
  refine h.setKill hk hscope.1 hcaptured (fun js => ?_) rfl (by simp [hups]) (by simp [hdowns])
  rw [Kill.own, Kill.own, hscope.1, hscope.2, hholds]

/-- `begin()` of a kill that has raised no barrier yet. -/
theorem begin (h : GateInv s) (hk : s.kills[i]? = some k) (hphase : k.phase = .created) :
    GateInv (s.beginKill i k .begun) := by
  have hnone : k.scope.acts = none := by
    have := h.captured k (List.mem_of_getElem? hk)
    simpa [hphase] using this
  simp only [State.beginKill, KillScope.begin, hnone, if_true]
  refine h.setKill hk rfl (by simp) (fun js => ?_) rfl (fun j => ?_) fun j => ?_
  · have hown : k.own js = 0 := by simp [Kill.own, Kill.holds, hphase]
    rw [hown, add_zero, SubmitGate.barrierUp, listAt_ledgerAdd]
    by_cases hjs : js = k.scope.jobset
    · subst hjs
      simp [Kill.own, Kill.holds, ← Multiset.coe_add]
    · simp [Kill.own, hjs, Ne.symm hjs]
  · by_cases hj : j = i <;> simp [hj, hphase, Phase.ups, Ne.symm]
  · simp [hphase, Phase.downs]

/-- The task's own `begin()` finds the barrier up. -/
theorem acquire (h : GateInv s) (hk : s.kills[i]? = some k) (hphase : k.phase = .queued) :
    GateInv (s.beginKill i k .running) := by
  obtain ⟨acts, hacts⟩ := Option.isSome_iff_exists.mp
    ((h.captured k (List.mem_of_getElem? hk)).mpr (by simp [hphase]))
  simp only [State.beginKill, KillScope.begin, hacts, reduceCtorEq, if_false, List.append_nil]
  exact h.setKill_same hk ⟨rfl, rfl⟩ (by simp [hacts]) (by simp [Kill.holds, hphase])
    (by simp [hphase, Phase.ups]) (by simp [hphase, Phase.downs])

theorem letGo (h : GateInv s) (hk : s.kills[i]? = some k)
    (hphase : k.phase = .begun ∨ k.phase = .queued ∨ k.phase = .running) :
    GateInv (s.letGo i k) := by
  obtain ⟨acts, hacts⟩ := Option.isSome_iff_exists.mp
    ((h.captured k (List.mem_of_getElem? hk)).mpr hphase)
  simp only [State.letGo, KillScope.letGo, hacts, if_true]
  refine h.setKill_same hk ⟨rfl, rfl⟩ (by simp) ?_ ?_ ?_ <;>
    rcases hphase with hphase | hphase | hphase <;>
    simp [Kill.holds, hphase, Phase.ups, Phase.downs]

/-- The barrier that goes down is the kill's own: an object that is the same has the same value. -/
theorem lower (h : GateInv s) (hk : s.kills[i]? = some k) (hphase : k.phase = .releasing) :
    GateInv (s.lowerBarrier i k) := by
  have hmem := List.mem_of_getElem? hk
  refine h.setKill hk rfl ?_ (fun js => ?_) rfl (fun j => ?_) fun j => ?_
  · have := h.captured k hmem
    simp only [hphase] at this
    simpa using this
  · have hnew : ({ k with phase := .ended } : Kill).own js = 0 := by simp [Kill.own, Kill.holds]
    rw [hnew, add_zero, SubmitGate.barrierDown, listAt_ledgerRemove]
    by_cases hjs : js = k.scope.jobset
    · subst hjs
      have hown : k.own k.scope.jobset = {k.scope.keys} := by simp [Kill.own, Kill.holds, hphase]
      have hheld := h.barriers k.scope.jobset
      have hin : k.scope.keys ∈ (s.gate.barriers.listAt k.scope.jobset : Multiset ScopeObject) := by
        rw [hheld, Multiset.mem_coe, heldScopes]
        exact List.mem_map_of_mem (List.mem_filter.mpr ⟨hmem, by simp [Kill.holds, hphase]⟩)
      have hsame : ∀ b ∈ s.gate.barriers.listAt k.scope.jobset, b.1 = k.scope.keys.1 →
          b = k.scope.keys := by
        intro b hb heq
        rw [← Multiset.mem_coe, hheld, Multiset.mem_coe, heldScopes] at hb
        obtain ⟨q, hq, rfl⟩ := List.mem_map.mp hb
        exact h.identity q (List.mem_of_mem_filter hq) k hmem heq
      rw [if_pos rfl, hown, coe_eraseP_eq_erase (a := k.scope.keys) (by simp)
        (fun b hb heq => hsame b hb (by simpa using heq)), add_comm, Multiset.singleton_add,
        Multiset.cons_erase hin]
    · rw [if_neg hjs]
      simp [Kill.own, Ne.symm hjs]
  · simp [hphase, Phase.ups]
  · by_cases hj : j = i <;> simp [hj, hphase, Phase.downs, Ne.symm]

theorem killScope (h : GateInv s) {js : String} {keys : ScopeObject}
    (hc : State.Consistent s.kills keys) :
    GateInv { s with kills := s.kills ++ [{ scope := ⟨js, keys, none⟩ }] } := by
  have hget (j : ℕ) : (s.kills ++ [({ scope := ⟨js, keys, none⟩ } : Kill)])[j]?
      = if j = s.kills.length then some { scope := ⟨js, keys, none⟩ } else s.kills[j]? := by
    rcases lt_trichotomy j s.kills.length with hlt | rfl | hgt
    · rw [List.getElem?_append_left hlt, if_neg hlt.ne]
    · simp
    · rw [if_neg hgt.ne', List.getElem?_eq_none (by simpa using hgt),
        List.getElem?_eq_none hgt.le]
  refine ⟨fun q hq => ?_, fun q hq q' hq' => ?_, fun js' => ?_, h.tokens, h.activities,
    fun j => ?_, fun j => ?_⟩
  · rcases List.mem_append.mp hq with hq | hq
    · exact h.captured q hq
    · obtain rfl := List.mem_singleton.mp hq
      simp
  · rcases List.mem_append.mp hq with hq | hq <;> rcases List.mem_append.mp hq' with hq' | hq'
    · exact h.identity q hq q' hq'
    · obtain rfl := List.mem_singleton.mp hq'
      exact hc q hq
    · obtain rfl := List.mem_singleton.mp hq
      exact fun heq => (hc q' hq' heq.symm).symm
    · obtain rfl := List.mem_singleton.mp hq
      obtain rfl := List.mem_singleton.mp hq'
      exact fun _ => rfl
  · rw [h.barriers js', heldScopes, heldScopes, List.filter_append]
    simp [Kill.holds]
  · rw [h.ups j, hget]
    split
    case isTrue hj => simp [hj, Phase.ups]
    case isFalse => rfl
  · rw [h.downs j, hget]
    split
    case isTrue hj => simp [hj, Phase.downs]
    case isFalse => rfl

theorem register (h : GateInv s) (js : String) (keys : List Key) :
    GateInv { s with
      gate := (s.gate.register js keys s.cycles.length).2
      cycles := s.cycles ++ [⟨js, (s.gate.register js keys s.cycles.length).1.activity, true⟩]
          } := by
  have hget (c : ℕ) (cyc : Lifecycle.Cycle) (a : Option ℕ) (ha : ∀ n ∈ a, n = s.cycles.length)
      (hc : (s.cycles ++ [⟨js, a, true⟩])[c]? = some cyc) : ∀ n ∈ cyc.token, n = c := by
    rcases lt_trichotomy c s.cycles.length with hlt | rfl | hgt
    · rw [List.getElem?_append_left hlt] at hc
      exact h.tokens c cyc hc
    · obtain rfl : ⟨js, a, true⟩ = cyc := by simpa using hc
      exact ha
    · rw [List.getElem?_eq_none (by simpa using hgt)] at hc
      cases hc
  have hlive (js' : String) (a : Option ℕ) : liveTokens js' (s.cycles ++ [⟨js, a, true⟩])
      = liveTokens js' s.cycles ++ if js = js' then a.toList else [] := by
    rw [liveTokens, List.filterMap_append]
    by_cases hjs : js = js'
    · rcases a with _ | a <;> simp [liveTokens, hjs]
    · simp [liveTokens, hjs]
  by_cases hc : keys.toFinset.Nonempty ∧
      keys.toFinset ⊆ Submit.SubmitGate.refusedBy keys.toFinset (s.gate.barriers.listAt js)
  · have hr : s.gate.register js keys s.cycles.length = (⟨none, keys.toFinset⟩, s.gate) := if_pos hc
    rw [hr]
    exact ⟨h.captured, h.identity, h.barriers, fun c cyc hcyc => hget c cyc none (by simp) hcyc,
      fun js' => by rw [hlive, h.activities js']; simp, h.ups, h.downs⟩
  · have hr : s.gate.register js keys s.cycles.length = (⟨some s.cycles.length, _⟩,
        { s.gate with activities := ledgerAdd s.gate.activities js s.cycles.length }) := if_neg hc
    rw [hr]
    refine ⟨h.captured, h.identity, h.barriers, fun c cyc hcyc => hget c cyc _ (by simp) hcyc,
      fun js' => ?_, h.ups, h.downs⟩
    rw [hlive, listAt_ledgerAdd]
    by_cases hjs : js' = js
    · simp [hjs, h.activities js]
    · simp [hjs, Ne.symm hjs, h.activities js']

/-- The token of a submission is its own: those before and after it have others. -/
theorem other_tokens (h : GateInv s) (c : ℕ) (js : String) :
    c ∉ liveTokens js (s.cycles.take c) ∧ c ∉ liveTokens js (s.cycles.drop (c + 1)) := by
  have hown : ∀ (d : ℕ) (cyd : Lifecycle.Cycle), s.cycles[d]? = some cyd →
      (if cyd.jobset = js ∧ cyd.live then cyd.token else none) = some c → c = d := by
    intro d cyd hd htoken
    exact h.tokens d cyd hd c (Option.ite_none_right_eq_some.mp htoken).2
  constructor
  · intro hmem
    obtain ⟨cyd, hcyd, htoken⟩ := List.mem_filterMap.mp hmem
    obtain ⟨d, hd⟩ := List.mem_iff_getElem?.mp hcyd
    have hlt : d < c := by
      have := (List.getElem?_eq_some_iff.mp hd).1
      simp only [List.length_take] at this
      omega
    rw [List.getElem?_take_of_lt hlt] at hd
    exact hlt.ne' (hown d cyd hd htoken)
  · intro hmem
    obtain ⟨cyd, hcyd, htoken⟩ := List.mem_filterMap.mp hmem
    obtain ⟨d, hd⟩ := List.mem_iff_getElem?.mp hcyd
    rw [List.getElem?_drop] at hd
    have := hown (c + 1 + d) cyd hd htoken
    omega

/-- An activity is taken out of the list once; later calls find nothing. -/
theorem unregister (h : GateInv s) {c : ℕ} {cyc : Lifecycle.Cycle} (hc : s.cycles[c]? = some cyc) :
    GateInv { s with
      gate := s.gate.unregister cyc.jobset cyc.token
      cycles := s.cycles.set c { cyc with live := false } } := by
  have hlt := (List.getElem?_eq_some_iff.mp hc).1
  have htok : ∀ (d : ℕ) (cyd : Lifecycle.Cycle),
    (s.cycles.set c { cyc with live := false })[d]? = some cyd →
      ∀ a ∈ cyd.token, a = d := by
    intro d cyd hd
    rw [List.getElem?_set] at hd
    split at hd
    case isTrue hcd =>
      subst hcd
      obtain rfl : { cyc with live := false } = cyd := by simpa [hlt] using hd
      exact h.tokens c cyc hc
    case isFalse => exact h.tokens d cyd hd
  have hbar : (s.gate.unregister cyc.jobset cyc.token).barriers = s.gate.barriers := by
    rcases cyc.token with _ | a <;> rfl
  refine ⟨h.captured, h.identity, by rw [hbar]; exact h.barriers, htok,
    fun js => ?_, h.ups, h.downs⟩
  have hlive : liveTokens js (s.cycles.set c { cyc with live := false })
      = liveTokens js (s.cycles.take c) ++ liveTokens js (s.cycles.drop (c + 1)) := by
    rw [List.set_eq_take_append_cons_drop, if_pos hlt, liveTokens_split]
    simp
  have hold := liveTokens_split js (s.cycles.take c) (s.cycles.drop (c + 1)) cyc
  rw [← eq_take_cons_drop hc] at hold
  rw [hlive]
  rcases htoken : cyc.token with _ | a
  · rw [SubmitGate.unregister, h.activities js, hold, htoken]
    simp
  · obtain rfl : a = c := h.tokens c cyc hc a htoken
    obtain ⟨hbefore, hafter⟩ := h.other_tokens a js
    rw [SubmitGate.unregister, listAt_ledgerRemove]
    by_cases hjs : js = cyc.jobset
    · subst hjs
      rw [if_pos rfl, h.activities, hold, htoken,
        List.eraseP_append_right _ fun b hb => by simpa using fun heq : b = a => hbefore (heq ▸ hb)]
      by_cases hl : cyc.live = true
      · rw [if_pos ⟨rfl, hl⟩, Option.toList_some, List.singleton_append,
          List.eraseP_cons_of_pos (by simp)]
      · rw [if_neg fun hh => hl hh.2, Option.toList_none, List.nil_append,
          List.eraseP_of_forall_not]
        exact fun b hb => by simpa using fun heq : b = a => hafter (heq ▸ hb)
    · rw [if_neg hjs, h.activities js, hold, if_neg fun hh => hjs hh.1.symm]
      simp

end GateInv

/-- **Every step keeps the gate in order.** -/
theorem GateInv.step {s s' : State} {a : Act} (h : GateInv s) (hs : State.step s a = some s') :
    GateInv s' := by
  cases a with
  | killScope js keys =>
    simp only [State.step] at hs
    split at hs
    case isTrue hc => obtain rfl := Option.some.inj hs; exact h.killScope hc
    case isFalse => cases hs
  | begin i =>
    simp only [State.step] at hs
    split at hs
    case h_1 k hk =>
      split at hs
      case isTrue hphase => obtain rfl := Option.some.inj hs; exact h.begin hk hphase
      case isFalse => cases hs
    case h_2 => cases hs
  | queue i q =>
    simp only [State.step] at hs
    split at hs
    case h_1 k hk =>
      split at hs
      case isTrue hphase =>
        cases q with
        | queued =>
          dsimp only at hs
          split at hs
          · cases hs
          · obtain rfl := Option.some.inj hs
            have hcaptured := h.captured k (List.mem_of_getElem? hk)
            exact h.setKill_same hk ⟨rfl, rfl⟩ (by simpa [hphase] using hcaptured)
              (by simp [Kill.holds, hphase]) (by simp [hphase, Phase.ups])
              (by simp [hphase, Phase.downs])
        | refused =>
          dsimp only at hs
          split at hs
          · obtain rfl := Option.some.inj hs
            exact h.letGo hk (.inl hphase)
          · cases hs
        | raises => obtain rfl := Option.some.inj hs; exact h.letGo hk (.inl hphase)
      case isFalse => cases hs
    case h_2 => cases hs
  | acquire i =>
    simp only [State.step] at hs
    split at hs
    case h_1 k hk =>
      split at hs
      case isTrue hphase => obtain rfl := Option.some.inj hs; exact h.acquire hk hphase
      case isFalse => cases hs
    case h_2 => cases hs
  | finish i =>
    simp only [State.step] at hs
    split at hs
    case h_1 k hk =>
      split at hs
      case isTrue hphase => obtain rfl := Option.some.inj hs; exact h.letGo hk (.inr hphase)
      case isFalse => cases hs
    case h_2 => cases hs
  | lower i =>
    simp only [State.step] at hs
    split at hs
    case h_1 k hk =>
      split at hs
      case isTrue hphase => obtain rfl := Option.some.inj hs; exact h.lower hk hphase
      case isFalse => cases hs
    case h_2 => cases hs
  | register js keys => obtain rfl := Option.some.inj hs; exact h.register js keys
  | unregister c =>
    simp only [State.step] at hs
    split at hs
    case h_1 cyc hc => obtain rfl := Option.some.inj hs; exact h.unregister hc
    case h_2 => cases hs
  | shutdown =>
    obtain rfl := Option.some.inj hs
    exact ⟨h.captured, h.identity, h.barriers, h.tokens, h.activities, h.ups, h.downs⟩

theorem gateInv {s : State} (h : system.Reachable s) : GateInv s := by
  refine h.invariant (fun s hs => ?_) fun s a s' _ ih _ hs => ih.step hs
  obtain rfl : s = {} := hs
  exact ⟨by simp, by simp, fun js => rfl, by simp, fun js => rfl, by simp, by simp⟩

/-! ## Balanced -/

/-- What a registration is answered: `covered` says which keys the kills in flight cover. -/
structure Admits (covered : Key → Prop) (keys : List Key) (reg : Registration) : Prop where
  refused : ∀ k, k ∈ reg.refused ↔ k ∈ keys ∧ covered k
  activity : reg.activity = none ↔ keys ≠ [] ∧ ∀ k ∈ keys, covered k

/-- The gate is balanced. -/
structure Balanced (s : State) : Prop where
  barriers : ∀ js, (((s.gate.barriers.listAt js).map Prod.snd : List Scope) : Multiset Scope)
    = ((s.kills.filter fun k => k.scope.jobset = js ∧ k.holds).map (·.scope.keys.2) : List Scope)
  activities : ∀ js, s.gate.activities.listAt js = liveTokens js s.cycles
  admits : ∀ js keys act, Admits
    (fun key => ∃ k ∈ s.kills, k.scope.jobset = js ∧ k.holds = true ∧ k.scope.keys.2.Covers key)
    keys (s.gate.register js keys act).1
  /-- A kill takes its barrier down once, at its end, and raises it at most once. -/
  released : ∀ i k, s.kills[i]? = some k →
    s.log.count (.up i) ≤ 1 ∧ s.log.count (.down i) = if k.phase = .ended then 1 else 0
  /-- Without a kill in flight every submission is admitted. -/
  idle : ∀ js, (∀ k ∈ s.kills, k.scope.jobset = js → k.holds = false) → ∀ keys act,
    (s.gate.register js keys act).1 = ⟨some act, ∅⟩

/-- What `register` answers, by the barriers that are up. -/
theorem SubmitGate.register_admits (g : SubmitGate) (js : String) (keys : List Key) (act : ℕ) :
    Admits (fun key => ∃ b ∈ g.barriers.listAt js, b.2.Covers key) keys (g.register js keys act).1 ∧
      ∀ a ∈ (g.register js keys act).1.activity, a = act := by
  have hrefused (key : Key) :
    key ∈ Submit.SubmitGate.refusedBy keys.toFinset (g.barriers.listAt js) ↔
      key ∈ keys.toFinset ∧ ∃ b ∈ g.barriers.listAt js, b.2.Covers key :=
    Submit.SubmitGate.mem_refusedBy
  by_cases hc : keys.toFinset.Nonempty ∧
      keys.toFinset ⊆ Submit.SubmitGate.refusedBy keys.toFinset (g.barriers.listAt js)
  · have hr : g.register js keys act = (⟨none, keys.toFinset⟩, g) := if_pos hc
    have hall : ∀ key ∈ keys, ∃ b ∈ g.barriers.listAt js, b.2.Covers key := fun key hkey =>
      ((hrefused key).mp (hc.2 (List.mem_toFinset.mpr hkey))).2
    have hne : keys ≠ [] := by simpa using hc.1
    rw [hr]
    refine ⟨⟨fun key => ?_, by simpa [hne] using hall⟩, by simp⟩
    rw [List.mem_toFinset]
    exact ⟨fun hkey => ⟨hkey, hall key hkey⟩, fun hkey => hkey.1⟩
  · have hr : g.register js keys act = (⟨some act, _⟩,
        { g with activities := ledgerAdd g.activities js act }) := if_neg hc
    rw [hr]
    refine ⟨⟨fun key => by rw [hrefused, List.mem_toFinset], ?_⟩, by simp⟩
    refine ⟨fun h => by simp at h, ?_⟩
    rintro ⟨hne, hall⟩
    refine absurd ⟨?_, fun key hkey => ?_⟩ hc
    · simpa using hne
    · exact (hrefused key).mpr ⟨hkey, hall key (List.mem_toFinset.mp hkey)⟩

/-- **Barriers are never leaked and never dropped early.** -/
theorem balanced {s : State} (h : system.Reachable s) : Balanced s := by
  have I := gateInv h
  have hmem (js : String) (b : ScopeObject) : b ∈ s.gate.barriers.listAt js ↔
      ∃ k ∈ s.kills, (k.scope.jobset = js ∧ k.holds = true) ∧ k.scope.keys = b := by
    rw [← Multiset.mem_coe, I.barriers js, Multiset.mem_coe, heldScopes]
    simp [and_assoc]
  have hadmits (js : String) (keys : List Key) (act : ℕ) : Admits
      (fun key => ∃ k ∈ s.kills, k.scope.jobset = js ∧ k.holds = true ∧ k.scope.keys.2.Covers key)
      keys (s.gate.register js keys act).1 := by
    have := (s.gate.register_admits js keys act).1
    have hcov : (fun key => ∃ b ∈ s.gate.barriers.listAt js, b.2.Covers key) = fun key =>
        ∃ k ∈ s.kills, k.scope.jobset = js ∧ k.holds = true ∧ k.scope.keys.2.Covers key := by
      funext key
      refine propext ⟨fun ⟨b, hb, hkey⟩ => ?_, fun ⟨k, hk, hjs, hholds, hkey⟩ => ?_⟩
      · obtain ⟨k, hk, ⟨hjs, hholds⟩, rfl⟩ := (hmem js b).mp hb
        exact ⟨k, hk, hjs, hholds, hkey⟩
      · exact ⟨_, (hmem js _).mpr ⟨k, hk, ⟨hjs, hholds⟩, rfl⟩, hkey⟩
    rwa [hcov] at this
  refine ⟨fun js => ?_, I.activities, hadmits, fun i k hk => ?_, fun js hidle keys act => ?_⟩
  · have := congrArg (Multiset.map Prod.snd) (I.barriers js)
    simpa [heldScopes, Function.comp_def] using this
  · rw [I.ups i, I.downs i, hk]
    cases hphase : k.phase <;> simp [hphase, Phase.ups, Phase.downs]
  · have hnone : ∀ key, ¬∃ k ∈ s.kills, k.scope.jobset = js ∧ k.holds = true ∧
        k.scope.keys.2.Covers key := by
      rintro key ⟨k, hk, hjs, hholds, -⟩
      rw [hidle k hk hjs] at hholds
      cases hholds
    have hA := hadmits js keys act
    have hrefused : (s.gate.register js keys act).1.refused = ∅ :=
      Finset.eq_empty_of_forall_notMem fun key hkey => hnone key ((hA.refused key).mp hkey).2
    have hact : (s.gate.register js keys act).1.activity ≠ none := by
      intro heq
      obtain ⟨hne, hall⟩ := hA.activity.mp heq
      obtain ⟨key, hkey⟩ := List.exists_mem_of_ne_nil keys hne
      exact hnone key (hall key hkey)
    obtain ⟨a, ha⟩ := Option.ne_none_iff_exists'.mp hact
    obtain rfl := (s.gate.register_admits js keys act).2 a ha
    rcases hreg : (s.gate.register js keys a).1 with ⟨activity, refused⟩
    rw [hreg] at ha hrefused
    rw [show activity = some a from ha, show refused = ∅ from hrefused]

/-- Two kills of the whole jobset and one of a key; the queueing of the first raises. -/
def overlapping : List Act :=
  [.killScope "js" (0, none), .killScope "js" (0, none), .killScope "js" (1, some {"a"}),
    .begin 0, .begin 1, .begin 2, .queue 0 .raises, .queue 1 .queued, .queue 2 .queued,
    .register "js" ["a", "b"], .lower 0, .acquire 1, .finish 1, .lower 1, .register "js" ["a", "b"]]

/-- Only the kill of the key is still in flight. -/
theorem balanced_overlapping : ∃ s, system.run {} overlapping = some s ∧
    s.gate.barriers.listAt "js" = [(1, some {"a"})] ∧
    s.cycles.map (·.token) = [none, some 1] ∧ Balanced s := by
  have hrun : (system.run {} overlapping).bind (fun s =>
      if s.gate.barriers.listAt "js" = [(1, some {"a"})] ∧ s.cycles.map (·.token) = [none, some 1]
        then some () else none) = some () := by decide +kernel
  obtain ⟨s, hs, hrest⟩ := Option.bind_eq_some_iff.mp hrun
  obtain ⟨⟨hbar, hcyc⟩, -⟩ := Option.ite_none_right_eq_some.mp hrest
  exact ⟨s, hs, hbar, hcyc, balanced (System.reachable_of_run (.init rfl) hs)⟩

end Lsfmgr.Lifecycle
