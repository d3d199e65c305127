import Mathlib
import Lsfmgr.Submit.Exposure
import Lsfmgr.Submit.Tracked

/-!
# Submit/Priority — a kill comes before the submissions

A kill raises its barrier, cancels the activities of that moment and waits until none of their keys
is inside the submission section.  From then on nothing of its scope is being submitted — in every
run in which no task leaves the section for another one of the same key that is still inside
(`priority_of_acquired`).  The source keeps a set of keys and not a count, so the condition can
fail: a retry may start before the attempt it repeats has left (`priority_fails`).
-/

namespace Lsfmgr.Submit

open Machinery

/-- Nothing of the key is inside the submission section of the cycle, and nothing gets in: the cycle
has finished, the key is cancelled, or it will be before the cycle starts. -/
def Quiet (ts : List Thread) (c : ℕ) (cyc : Cycle) (k : Key) : Prop :=
  cyc.finished = true ∨ k ∉ cyc.inflight ∧
    (cyc.isCancelled k = true ∨ (∃ b, ⟨c, [.register b]⟩ ∈ ts) ∨
      ∃ reg b, ⟨c, [.newContext reg b]⟩ ∈ ts ∧ k ∈ reg.refused)

/-- What a kill may still have to do about a cycle in which the key is not quiet. -/
def KillPhase.Owes (c : ℕ) (sealed : Prop) : KillPhase → Prop
  | .queued | .released => True
  | .cancelling acts todo flagged =>
    c ∈ acts ∧ (sealed ∨ c ∈ todo ∧ (flagged = true → todo.head? = some c → sealed))
  | .waiting todo ok => ok = false ∨ sealed ∧ c ∈ todo
  | .acquired ok => ok = false

/-- The barrier of the kill is up. -/
def KillPhase.isUp : KillPhase → Bool
  | .queued | .released => false
  | _ => true

theorem KillPhase.Owes.mono {c : ℕ} {p q : Prop} {ph : KillPhase} (h : ph.Owes c p)
    (hpq : p → q) : ph.Owes c q := by
  cases ph with
  | queued => trivial
  | released => trivial
  | cancelling acts todo flagged =>
    exact ⟨h.1, h.2.imp hpq fun h => ⟨h.1, fun hf hh => hpq (h.2 hf hh)⟩⟩
  | waiting todo ok => exact h.imp_right fun h => ⟨hpq h.1, h.2⟩
  | acquired ok => exact h

theorem KillPhase.owes_of_not_isUp {c : ℕ} {p : Prop} {ph : KillPhase} (h : ph.isUp = false) :
    ph.Owes c p := by
  cases ph <;> simp_all [isUp, Owes]

section Step

variable {P : Params} {w w' : Shared} {ts ts' : List Thread} {ran : Option ℕ}

/-- While a cycle is being launched no other thread holds a unit of it. -/
theorem units_eq_zero_of_launching {c : ℕ} {cyc : Cycle} {n : ℕ} {log : List (ℕ × Signal)}
    (A : Accounts c cyc ts n log) {i : ℕ} {x : Instr} {rest : List Instr}
    (hi : ts[i]? = some ⟨c, x :: rest⟩) {y : Instr} (hy : ⟨c, [y]⟩ ∈ ts)
    (hall : y.units cyc.keys = cyc.keys) (hne : (⟨c, [y]⟩ : Thread) ≠ ⟨c, x :: rest⟩) :
    x.units cyc.keys = 0 := by
  have hheld := held_replaceAt cyc.keys [] [] hi
  simp only [List.nil_append, List.map_nil, codeUnits_nil, List.sum_nil, add_zero] at hheld
  have hle : (cyc.keys : Multiset Key) ≤ held cyc.keys c (replaceAt ts i [⟨c, rest⟩]) := by
    have hmem : (⟨c, [y]⟩ : Thread) ∈ replaceAt ts i [⟨c, rest⟩] := mem_replaceAt_of_ne hi hy hne
    have hle : codeUnits cyc.keys [y] ≤ _ := codeUnits_le_held hmem rfl
    simpa [hall] using hle
  have hcard := congrArg Multiset.card hheld
  have hcard' := Multiset.card_le_card hle
  have hsum := congrArg Multiset.card A.units
  simp only [Multiset.card_add, Multiset.coe_card] at hcard hcard' hsum
  exact Multiset.card_eq_zero.mp (by omega)

/-- A thread keeps a key quiet, provided that a registration refuses it. -/
theorem Quiet.thread (L : Ledgered w ts) {i : ℕ} {o : Oracle} {t : Thread} {x : Instr}
    {rest : List Instr} {cyc : Cycle} {e : Effect} (hi : ts[i]? = some t)
    (hcode : t.code = x :: rest) (hcyc : w.cycles[t.cycle]? = some cyc)
    (h : exec P o t.cycle cyc w x = some e) {d : ℕ} {cyd cyd' : Cycle} {k : Key}
    (hd : w.cycles[d]? = some cyd) (hd' : (w.apply t.cycle e).cycles[d]? = some cyd')
    (hq : Quiet ts d cyd k)
    (hreg : t.cycle = d → ∀ b, x = .register b →
      k ∈ (w.gate.register d cyd.keys.toFinset).1.refused) :
    Quiet (replaceAt ts i (⟨t.cycle, e.code ++ rest⟩ :: e.spawned.map (Thread.mk t.cycle)))
      d cyd' k := by
  obtain ⟨c, code⟩ := t
  obtain rfl : code = x :: rest := hcode
  have hmem := List.mem_of_getElem? hi
  have hlt : c < w.cycles.length := L.known _ hmem
  simp only [Shared.apply, List.getElem?_set, hlt, if_true] at hd'
  by_cases hcd : c = d
  · subst hcd
    obtain rfl := Option.some.inj (hcyc.symm.trans hd)
    obtain rfl : e.cyc = cyd' := by simpa using hd'
    rcases hq with hf | ⟨hk, hq⟩
    · exact .inl (exec_finished hf h)
    · -- only `_enter_inflight` lets a key in, and it is not cancelled then
      have hk' : k ∉ e.cyc.inflight := by
        intro hin
        rcases (exec_inflight h k).1 hin with hin | ⟨⟨a, rfl⟩, hnc⟩
        · exact hk hin
        · rcases hq with hc | ⟨b, hb⟩ | ⟨reg, b, hb, -⟩
          · rw [hc] at hnc; cases hnc
          · have := units_eq_zero_of_launching (L.cycles c cyc hcyc) hi hb rfl (by simp)
            simp [Instr.units] at this
          · have := units_eq_zero_of_launching (L.cycles c cyc hcyc) hi hb rfl (by simp)
            simp [Instr.units] at this
      refine .inr ⟨hk', ?_⟩
      rcases hq with hc | ⟨b, hb⟩ | ⟨reg, b, hb, hr⟩
      · exact .inl (exec_isCancelled hc h)
      · by_cases heq : (⟨c, [.register b]⟩ : Thread) = ⟨c, x :: rest⟩
        · obtain ⟨rfl, rfl⟩ : .register b = x ∧ [] = rest := by simpa using heq
          obtain rfl := Option.some.inj h
          exact .inr (.inr ⟨_, b, mem_replaceAt_right List.mem_cons_self, hreg rfl b rfl⟩)
        · exact .inr (.inl ⟨b, mem_replaceAt_of_ne hi hb heq⟩)
      · by_cases heq : (⟨c, [.newContext reg b]⟩ : Thread) = ⟨c, x :: rest⟩
        · obtain ⟨rfl, rfl⟩ : .newContext reg b = x ∧ [] = rest := by simpa using heq
          obtain rfl := Option.some.inj h
          left
          rw [newContext]
          split
          · simp [Cycle.isCancelled, hr]
          · simp [Cycle.isCancelled]
        · exact .inr (.inr ⟨reg, b, mem_replaceAt_of_ne hi hb heq, hr⟩)
  · rw [if_neg hcd] at hd'
    obtain rfl := Option.some.inj (hd.symm.trans hd')
    have hstay : ∀ code', (⟨d, code'⟩ : Thread) ∈ ts → (⟨d, code'⟩ : Thread) ∈ replaceAt ts i
        (⟨c, e.code ++ rest⟩ :: e.spawned.map (Thread.mk c)) := fun code' hmem' =>
      mem_replaceAt_of_ne hi hmem' fun heq => hcd (congrArg Thread.cycle heq).symm
    rcases hq with hf | ⟨hk, hc | ⟨b, hb⟩ | ⟨reg, b, hb, hr⟩⟩
    · exact .inl hf
    · exact .inr ⟨hk, .inl hc⟩
    · exact .inr ⟨hk, .inr (.inl ⟨b, hstay _ hb⟩)⟩
    · exact .inr ⟨hk, .inr (.inr ⟨reg, b, hstay _ hb, hr⟩)⟩

/-- More threads, more cancellations and the same section keep a key quiet. -/
theorem Quiet.mono {c : ℕ} {cyc cyc' : Cycle} {k : Key} (h : Quiet ts c cyc k)
    (hts : ∀ t ∈ ts, t ∈ ts') (hf : cyc'.finished = cyc.finished)
    (hin : cyc'.inflight = cyc.inflight)
    (hc : cyc.isCancelled k = true → cyc'.isCancelled k = true) : Quiet ts' c cyc' k := by
  rw [Quiet, hf, hin]
  exact h.imp_right fun ⟨hk, hq⟩ => ⟨hk, hq.imp hc (Or.imp (fun ⟨b, hb⟩ => ⟨b, hts _ hb⟩)
    fun ⟨reg, b, hb, hr⟩ => ⟨reg, b, hts _ hb, hr⟩)⟩

theorem Cycle.isCancelled_cancel {cyc : Cycle} {k : Key} (scope : Scope)
    (h : cyc.isCancelled k = true ∨ scope.Covers k) : (cyc.cancel scope).isCancelled k = true := by
  cases scope with
  | none => simp [Cycle.cancel, Cycle.isCancelled]
  | some ks =>
    simp only [Cycle.isCancelled, Cycle.cancel, Bool.or_eq_true, decide_eq_true_eq,
      Finset.mem_union] at h ⊢
    rcases h with h | h
    · exact h.imp_right .inl
    · exact .inr (.inr h)

/-- **A key stays quiet**, provided that a registration refuses it; and in a cycle that is just
created every key is quiet. -/
theorem Quiet.step (L : Ledgered w ts) (h : Stepped P w ts ran w' ts') {d : ℕ} {cyd' : Cycle}
    {k : Key} (hd' : w'.cycles[d]? = some cyd')
    (hq : ∀ cyd, w.cycles[d]? = some cyd → cyd.keys = cyd'.keys → Quiet ts d cyd k ∧
      ∀ i b, ran = some i → ts[i]? = some ⟨d, [.register b]⟩ →
        k ∈ (w.gate.register d cyd.keys.toFinset).1.refused) :
    Quiet ts' d cyd' k := by
  cases h with
  | @thread i o t x rest cyc e hi hcode hcyc hexec =>
    have hlt : t.cycle < w.cycles.length := L.known _ (List.mem_of_getElem? hi)
    obtain ⟨cyd, hd, hkeys⟩ : ∃ cyd, w.cycles[d]? = some cyd ∧ cyd.keys = cyd'.keys := by
      simp only [Shared.apply, List.getElem?_set, hlt, if_true] at hd'
      split at hd'
      case isTrue heq =>
        obtain rfl := Option.some.inj hd'
        exact ⟨cyc, heq ▸ hcyc, (congrArg (List.map Prod.fst) (exec_keyed hexec)).symm⟩
      case isFalse => exact ⟨cyd', hd', rfl⟩
    obtain ⟨hquiet, hreg⟩ := hq cyd hd hkeys
    refine hquiet.thread L hi hcode hcyc hexec hd hd' fun htd b hx => hreg i b rfl ?_
    have hshape := L.shape t (List.mem_of_getElem? hi)
    rw [hcode, hx] at hshape
    have hrest := (hshape.resolve_left fun hl => by
      simpa [Instr.isLaunch] using hl _ List.mem_cons_self).rest_eq_nil rfl
    obtain ⟨c, code⟩ := t
    obtain rfl : c = d := htd
    obtain rfl : code = x :: rest := hcode
    rwa [hx, hrest] at hi
  | @submit cyc pre _ _ _ =>
    rcases Nat.lt_or_ge d w.cycles.length with hlt | hge
    · rw [List.getElem?_append_left hlt] at hd'
      exact (hq cyd' hd' rfl).1.mono (fun t ht => List.mem_append_left _ ht) rfl rfl id
    · rw [List.getElem?_append_right hge, List.getElem?_singleton] at hd'
      split at hd'
      case isTrue heq =>
        obtain rfl := Option.some.inj hd'
        rename_i hcyc
        obtain ⟨keyed, maxRetry, slotLimit, rfl⟩ := hcyc
        obtain rfl : d = w.cycles.length := by omega
        exact .inr ⟨by simp, .inr (.inl ⟨pre, by simp⟩)⟩
      case isFalse => cases hd'
  | @cancel c cyc scope hc =>
    rw [Shared.cycles_setCycle hc] at hd'
    split at hd'
    case isTrue heq =>
      subst heq
      obtain rfl := Option.some.inj hd'
      have hkeys : cyc.keys = (cyc.cancel scope).keys := by cases scope <;> rfl
      exact (hq cyc hc hkeys).1.mono (fun _ h => h) (by cases scope <;> rfl)
        (by cases scope <;> rfl) fun h => Cycle.isCancelled_cancel scope (.inl h)
    case isFalse => exact (hq cyd' hd' rfl).1
  | @abort c cyc scope how reason hc =>
    rw [Shared.cycles_setCycle hc] at hd'
    split at hd'
    case isTrue heq =>
      subst heq
      obtain rfl := Option.some.inj hd'
      obtain ⟨-, -, pend, settled, heq⟩ := Cycle.popRetries_spec how (cyc.abortedKeys scope) cyc
      have hkeys : cyc.keys = (cyc.popRetries how (cyc.abortedKeys scope)).2.keys := by
        rw [heq]; rfl
      exact (hq cyc hc hkeys).1.mono (fun t ht => List.mem_append_left _ ht) (by rw [heq])
        (by rw [heq]) fun h => by rw [heq]; exact h
    case isFalse =>
      exact (hq cyd' hd' rfl).1.mono (fun t ht => List.mem_append_left _ ht) rfl rfl id
  | write => exact (hq cyd' hd' rfl).1
  | flags => exact (hq cyd' hd' rfl).1

/-- A cancellation is never taken back, whatever the step. -/
theorem Stepped.isCancelled (L : Ledgered w ts) (h : Stepped P w ts ran w' ts') {d : ℕ}
    {cyd cyd' : Cycle} {k : Key} (hd : w.cycles[d]? = some cyd) (hd' : w'.cycles[d]? = some cyd')
    (hk : cyd.isCancelled k = true) : cyd'.isCancelled k = true := by
  cases h with
  | @thread i o t x rest cyc e hi hcode hcyc hexec =>
    have hlt : t.cycle < w.cycles.length := L.known _ (List.mem_of_getElem? hi)
    simp only [Shared.apply, List.getElem?_set, hlt, if_true] at hd'
    split at hd'
    case isTrue heq =>
      obtain rfl := Option.some.inj hd'
      obtain rfl := Option.some.inj ((heq ▸ hcyc).symm.trans hd)
      exact exec_isCancelled hk hexec
    case isFalse => exact Option.some.inj (hd.symm.trans hd') ▸ hk
  | submit =>
    rw [List.getElem?_append_left (List.getElem?_eq_some_iff.mp hd).1] at hd'
    exact Option.some.inj (hd.symm.trans hd') ▸ hk
  | @cancel c cyc scope hc =>
    rw [Shared.cycles_setCycle hc] at hd'
    split at hd'
    case isTrue heq =>
      subst heq
      obtain rfl := Option.some.inj hd'
      obtain rfl := Option.some.inj (hc.symm.trans hd)
      exact Cycle.isCancelled_cancel scope (.inl hk)
    case isFalse => exact Option.some.inj (hd.symm.trans hd') ▸ hk
  | @abort c cyc scope how reason hc =>
    rw [Shared.cycles_setCycle hc] at hd'
    split at hd'
    case isTrue heq =>
      subst heq
      obtain rfl := Option.some.inj hd'
      obtain rfl := Option.some.inj (hc.symm.trans hd)
      obtain ⟨-, -, pend, settled, heq⟩ := Cycle.popRetries_spec how (cyc.abortedKeys scope) cyc
      rw [heq]
      exact hk
    case isFalse => exact Option.some.inj (hd.symm.trans hd') ▸ hk
  | write => exact Option.some.inj (hd.symm.trans hd') ▸ hk
  | flags => exact Option.some.inj (hd.symm.trans hd') ▸ hk

/-- `inflight` names the keys of the exposed tasks. -/
def Covered (w : Shared) (ts : List Thread) : Prop :=
  ∀ t ∈ ts, ∀ cyc : Cycle, w.cycles[t.cycle]? = some cyc → ∀ y ∈ t.code, ∀ k,
    y.exposes k = true → k ∈ cyc.inflight

/-- The instruction that runs is no `_leave_inflight` of a key of which another task is still
inside. -/
def LeavesLast (ts : List Thread) (ran : Option ℕ) : Prop :=
  ∀ i, ran = some i → ∀ t, ts[i]? = some t → ∀ k rest, t.code = .leave k :: rest →
    ∀ t' ∈ ts, t'.cycle = t.cycle → ∀ y ∈ t'.code, y.exposes k = false

/-- Replacing a cycle by one with the same section, with threads that are not exposed. -/
theorem Covered.setCycle (V : Covered w ts) {c : ℕ} {cyc cyc' : Cycle} {more : List Thread}
    (hc : w.cycles[c]? = some cyc) (hin : cyc'.inflight = cyc.inflight)
    (hmore : ∀ t ∈ more, ∀ y ∈ t.code, ∀ k, y.exposes k = false) :
    Covered (w.setCycle c cyc') (ts ++ more) := by
  intro t ht cyd hd y hy k hk
  rcases List.mem_append.mp ht with ht | ht
  · rw [Shared.cycles_setCycle hc] at hd
    split at hd
    case isTrue heq =>
      obtain rfl := Option.some.inj hd
      rw [hin]
      exact V t ht cyc (heq ▸ hc) y hy k hk
    case isFalse => exact V t ht cyd hd y hy k hk
  · simp [hmore t ht y hy k] at hk

theorem Covered.step (V : Covered w ts) (L : Ledgered w ts) (h : Stepped P w ts ran w' ts')
    (hleave : LeavesLast ts ran) : Covered w' ts' := by
  cases h with
  | @thread i o t x rest cyc e hi hcode hcyc hexec =>
    have hmem := List.mem_of_getElem? hi
    have hlt : t.cycle < w.cycles.length := L.known _ hmem
    -- a key of this cycle stays inside unless this is its `_leave_inflight`
    have hstay : ∀ t₀ ∈ ts, t₀.cycle = t.cycle → ∀ y ∈ t₀.code, ∀ k, y.exposes k = true →
        k ∈ e.cyc.inflight := by
      intro t₀ ht₀ htc y hy k hk
      rcases (exec_inflight hexec k).2 (V t₀ ht₀ cyc (htc ▸ hcyc) y hy k hk) with hin | rfl
      · exact hin
      · simp [hleave i rfl t hi k rest hcode t₀ ht₀ htc y hy] at hk
    intro t' ht' cyd hd y hy k hk
    simp only [Shared.apply, List.getElem?_set, hlt, if_true] at hd
    rcases mem_replaceAt ht' with hold | hnew
    · split at hd
      case isTrue heq =>
        obtain rfl := Option.some.inj hd
        exact hstay t' hold heq.symm y hy k hk
      case isFalse => exact V t' hold cyd hd y hy k hk
    · obtain ⟨hcodes, hspawned⟩ := exec_exposes hexec k
      rcases List.mem_cons.mp hnew with rfl | hsp
      · simp only [if_true] at hd
        obtain rfl := Option.some.inj hd
        rcases List.mem_append.mp hy with hy | hy
        · rcases hcodes y hy hk with hx | ⟨-, hin⟩
          · exact hstay t hmem rfl x (hcode ▸ List.mem_cons_self) k hx
          · exact hin
        · exact hstay t hmem rfl y (hcode ▸ List.mem_cons_of_mem _ hy) k hk
      · obtain ⟨code, hcode', rfl⟩ := List.mem_map.mp hsp
        simp [hspawned code hcode' y hy] at hk
  | submit =>
    intro t ht cyd hd y hy k hk
    rcases List.mem_append.mp ht with ht | ht
    · rw [List.getElem?_append_left (L.known t ht)] at hd
      exact V t ht cyd hd y hy k hk
    · obtain rfl := List.mem_singleton.mp ht
      obtain rfl := List.mem_singleton.mp hy
      cases hk
  | @cancel c cyc scope hc =>
    rw [← List.append_nil ts]
    exact V.setCycle hc (by cases scope <;> rfl) (by simp)
  | @abort c cyc scope how reason hc =>
    obtain ⟨-, -, pend, settled, heq⟩ := Cycle.popRetries_spec how (cyc.abortedKeys scope) cyc
    refine V.setCycle hc (by rw [heq]) fun t ht y hy k => ?_
    obtain rfl := List.mem_singleton.mp ht
    obtain ⟨k', -, rfl⟩ := List.mem_map.mp hy
    rfl
  | write => exact V
  | flags => exact V

/-- A cycle that the gate does not list is quiet. -/
def Listed (w : Shared) (ts : List Thread) : Prop :=
  ∀ (c : ℕ) (cyc : Cycle), w.cycles[c]? = some cyc → c ∈ w.gate.activities ∨
    ∀ k ∈ cyc.keys, Quiet ts c cyc k

theorem Listed.step (G : Listed w ts) (L : Ledgered w ts) (C : Current w ts)
    (h : Stepped P w ts ran w' ts') : Listed w' ts' := by
  intro d cyd' hd'
  by_cases hgone : d ∈ w'.gate.activities
  · exact .inl hgone
  refine .inr fun k hk => ?_
  by_cases hact : d ∈ w.gate.activities
  · -- it was listed: its own end took it off the list, and it has finished
    cases h with
    | @thread i o t x rest cyc e hi hcode hcyc hexec =>
      rcases exec_activities hexec hact with hin | ⟨rfl, rfl⟩
      · exact absurd hin hgone
      · have hmem := List.mem_of_getElem? hi
        have hf := C.ended t hmem cyc hcyc .unregister (hcode ▸ List.mem_cons_self) rfl
        have hlt : t.cycle < w.cycles.length := L.known _ hmem
        obtain rfl : e.cyc = cyd' := by
          simpa [Shared.apply, List.getElem?_set, hlt] using hd'
        exact .inl (exec_finished hf hexec)
    | submit | cancel | abort | write | flags => exact absurd hact hgone
  · refine Quiet.step L h hd' fun cyd hd hkeys => ?_
    refine ⟨((G d cyd hd).resolve_left hact) k (hkeys ▸ hk), fun i b hran hi' => ?_⟩
    -- the registration was refused, so it was refused for every key
    cases h with
    | @thread j o t x rest cyc e hi hcode hcyc hexec =>
      obtain rfl := Option.some.inj hran
      obtain rfl := Option.some.inj (hi'.symm.trans hi)
      obtain ⟨rfl, rfl⟩ : .register b = x ∧ [] = rest := by simpa using hcode
      obtain rfl := Option.some.inj (hd.symm.trans hcyc)
      obtain rfl := Option.some.inj hexec
      obtain ⟨reg, gate, hreg⟩ : ∃ reg gate, w.gate.register d cyd.keys.toFinset = (reg, gate) :=
        ⟨_, _, rfl⟩
      have hgone' : d ∉ (w.gate.register d cyd.keys.toFinset).2.activities := hgone
      rw [hreg] at hgone' ⊢
      rcases (SubmitGate.register_spec hreg).2.2 with ⟨-, hact'⟩ | ⟨-, -, hall⟩
      · exact absurd (by rw [hact']; simp) hgone'
      · rw [hall]
        exact List.mem_toFinset.mpr (hkeys ▸ hk)
    | _ => cases hran

end Step

/-! ## The kills -/

/-- What holds of one kill: a key of its scope is quiet, or the kill has still to see to it. -/
def Attended (w : Shared) (ts : List Thread) (kl : Kill) : Prop :=
  ∀ (c : ℕ) (cyc : Cycle), w.cycles[c]? = some cyc → ∀ k ∈ cyc.keys, kl.scope.Covers k →
    Quiet ts c cyc k ∨ kl.phase.Owes c (cyc.isCancelled k = true)

section Kills

variable {P : Params} {w w' : Shared} {ts ts' : List Thread} {ran : Option ℕ}

theorem attended_of_not_isUp {kl : Kill} (h : kl.phase.isUp = false) : Attended w ts kl :=
  fun _ _ _ _ _ _ => .inr (KillPhase.owes_of_not_isUp h)

/-- A kill stays attended to, whatever the step, while its barrier is up. -/
theorem Attended.step {kl : Kill} {j : ℕ} (A : Attended w ts kl) (L : Ledgered w ts)
    (h : Stepped P w ts ran w' ts')
    (hbar : kl.phase.isUp = true → (j, kl.scope) ∈ w.gate.barriers) : Attended w' ts' kl := by
  by_cases hup : kl.phase.isUp = true
  swap
  · exact attended_of_not_isUp (by simpa using hup)
  intro d cyd' hd' k hk hcov
  by_cases howes : ∃ cyd, w.cycles[d]? = some cyd ∧ cyd.keys = cyd'.keys ∧
      kl.phase.Owes d (cyd.isCancelled k = true)
  · obtain ⟨cyd, hd, -, ho⟩ := howes
    exact .inr (ho.mono fun hc => h.isCancelled L hd hd' hc)
  · refine .inl (Quiet.step L h hd' fun cyd hd hkeys => ⟨?_, fun i b _ _ => ?_⟩)
    · exact (A d cyd hd k (hkeys ▸ hk) hcov).resolve_right fun ho => howes ⟨cyd, hd, hkeys, ho⟩
    · obtain ⟨reg, gate, hreg⟩ : ∃ reg gate, w.gate.register d cyd.keys.toFinset = (reg, gate) :=
        ⟨_, _, rfl⟩
      rw [hreg]
      exact (SubmitGate.register_spec hreg).1 k (List.mem_toFinset.mpr (hkeys ▸ hk)) _ (hbar hup)
        hcov

/-- The kill moves on in a state in which it was attended to. -/
theorem Attended.move {kl : Kill} {phase : KillPhase} (A : Attended w ts kl)
    (h : ∀ (c : ℕ) (cyc : Cycle), w.cycles[c]? = some cyc → ∀ k ∈ cyc.keys, kl.scope.Covers k →
      kl.phase.Owes c (cyc.isCancelled k = true) →
      Quiet ts c cyc k ∨ phase.Owes c (cyc.isCancelled k = true)) :
    Attended w ts { kl with phase } :=
  fun c cyc hc k hk hcov => (A c cyc hc k hk hcov).elim .inl (h c cyc hc k hk hcov)

end Kills

theorem mem_barrierDown {g : SubmitGate} {i j : ℕ} {scope : Scope} (hne : i ≠ j)
    (h : (i, scope) ∈ g.barriers) : (i, scope) ∈ (g.barrierDown j).barriers := by
  refine (List.mem_eraseP_of_neg ?_).mpr h
  simpa using hne

/-- After the flags are raised, every key of the scope is cancelled. -/
theorem cancelScope_isCancelled {w : Shared} {c : ℕ} {scope : Scope} {cyc : Cycle} {k : Key}
    (hc : (w.cancelScope c scope).cycles[c]? = some cyc) (hk : scope.Covers k) :
    cyc.isCancelled k = true := by
  rw [Shared.cancelScope] at hc
  split at hc
  case h_1 hnone => rw [hnone] at hc; cases hc
  case h_2 cyc₀ hc₀ =>
    rw [Shared.cycles_setCycle hc₀, if_pos rfl] at hc
    obtain rfl := Option.some.inj hc
    have : (cyc₀.cancel scope).isCancelled k = true := Cycle.isCancelled_cancel scope (.inr hk)
    cases scope <;> exact this

/-- What the kills of a state rely on. -/
structure Watched (s : State) : Prop where
  covered : Covered s.shared s.threads
  listed : Listed s.shared s.threads
  barrier : ∀ (j : ℕ) (kl : Kill), s.kills[j]? = some kl → kl.phase.isUp = true →
    (j, kl.scope) ∈ s.shared.gate.barriers
  attended : ∀ (j : ℕ) (kl : Kill), s.kills[j]? = some kl → Attended s.shared s.threads kl

namespace Watched

variable {P : Params} {s s' : State} {ran : Option ℕ}

/-- A step that leaves the kills and the barriers alone. -/
theorem frame (W : Watched s) (L : Ledgered s.shared s.threads)
    (C : Current s.shared s.threads) (h : Stepped P s.shared s.threads ran s'.shared s'.threads)
    (hleave : LeavesLast s.threads ran) (hkills : s'.kills = s.kills)
    (hbar : s'.shared.gate.barriers = s.shared.gate.barriers) : Watched s' where
  covered := W.covered.step L h hleave
  listed := W.listed.step L C h
  barrier j kl hj hup := by
    rw [hbar]
    exact W.barrier j kl (hkills ▸ hj) hup
  attended j kl hj := by
    rw [hkills] at hj
    exact (W.attended j kl hj).step L h (W.barrier j kl hj)

/-- A step of one kill. -/
theorem setKill (W : Watched s) (L : Ledgered s.shared s.threads)
    (C : Current s.shared s.threads) (h : Stepped P s.shared s.threads none s'.shared s'.threads)
    {j : ℕ} {kl kl' : Kill} (hj : s.kills[j]? = some kl) (hkills : s'.kills = s.kills.set j kl')
    (hbar : ∀ i scope, i ≠ j → (i, scope) ∈ s.shared.gate.barriers →
      (i, scope) ∈ s'.shared.gate.barriers)
    (hown : kl'.phase.isUp = true → (j, kl'.scope) ∈ s'.shared.gate.barriers)
    (hatt : Attended s'.shared s'.threads kl → Attended s'.shared s'.threads kl') : Watched s' where
  covered := W.covered.step L h fun _ hran => by cases hran
  listed := W.listed.step L C h
  barrier i kli hi hup := by
    rw [hkills, List.getElem?_set] at hi
    split at hi
    case isTrue heq =>
      subst heq
      rw [if_pos (List.getElem?_eq_some_iff.mp hj).1] at hi
      obtain rfl := Option.some.inj hi
      exact hown hup
    case isFalse hne => exact hbar i _ (Ne.symm hne) (W.barrier i kli hi hup)
  attended i kli hi := by
    rw [hkills, List.getElem?_set] at hi
    split at hi
    case isTrue heq =>
      subst heq
      rw [if_pos (List.getElem?_eq_some_iff.mp hj).1] at hi
      obtain rfl := Option.some.inj hi
      exact hatt ((W.attended _ kl hj).step L h (W.barrier _ kl hj))
    case isFalse => exact (W.attended i kli hi).step L h (W.barrier i kli hi)

/-- **The steps of a kill keep it attended to.** -/
theorem stepKill (P : Params) (W : Watched s) (L : Ledgered s.shared s.threads)
    (C : Current s.shared s.threads) {j : ℕ} {timeout : Bool}
    (h : s.stepKill j timeout = some s') : Watched s' := by
  have hcases := stepKill_cases (P := P) h
  rw [State.stepKill] at h
  split at h
  case h_1 => cases h
  case h_2 kl hj =>
    obtain ⟨scope, phase⟩ := kl
    have hbarrier := W.barrier j ⟨scope, phase⟩ hj
    split at h
    case h_1 hph =>
      -- the barrier goes up; the activities of this moment are to be cancelled
      obtain rfl : phase = .queued := hph
      obtain rfl := Option.some.inj h
      refine W.setKill L C hcases hj rfl (fun i sc _ hi => List.mem_append_left _ hi)
        (fun _ => List.mem_append_right _ List.mem_cons_self) fun _ => ?_
      intro c cyc hc k hk _
      rcases W.listed.step L C hcases c cyc hc with hin | hq
      · exact .inr ⟨hin, .inr ⟨hin, by simp⟩⟩
      · exact .inl (hq k hk)
    case h_2 acts flagged hph =>
      obtain rfl : phase = .cancelling acts [] flagged := hph
      obtain rfl := Option.some.inj h
      refine W.setKill L C hcases hj rfl (fun i sc _ hi => hi)
        (fun _ => hbarrier rfl) fun A => A.move fun c cyc hc k hk hcov ho => .inr ?_
      exact .inr ⟨ho.2.resolve_right (fun hm => by simpa using hm.1), ho.1⟩
    case h_3 acts c₀ todo hph =>
      -- the flags of one activity are raised
      obtain rfl : phase = .cancelling acts (c₀ :: todo) false := hph
      obtain rfl := Option.some.inj h
      have hgate : (s.shared.cancelScope c₀ scope).gate = s.shared.gate := by
        rw [Shared.cancelScope]; split <;> rfl
      refine W.setKill L C hcases hj rfl (fun i sc _ hi => by rwa [← hgate] at hi)
        (fun _ => by
          change (j, scope) ∈ (s.shared.cancelScope c₀ scope).gate.barriers
          rw [hgate]
          exact hbarrier rfl) fun A => A.move fun c cyc hc k hk hcov ho => .inr ?_
      refine ⟨ho.1, ho.2.imp_right fun hm => ⟨hm.1, fun _ hhead => ?_⟩⟩
      obtain rfl : c₀ = c := by simpa using hhead
      exact cancelScope_isCancelled hc hcov
    case h_4 acts c₀ todo hph =>
      obtain rfl : phase = .cancelling acts (c₀ :: todo) true := hph
      obtain rfl := Option.some.inj h
      have hgate : (s.shared.abortRetries c₀ scope .aborted "KILLED").1.gate = s.shared.gate := by
        rw [Shared.abortRetries]; split <;> rfl
      refine W.setKill L C hcases hj rfl (fun i sc _ hi => by rwa [← hgate] at hi)
        (fun _ => by
          change (j, scope) ∈ (s.shared.abortRetries c₀ scope .aborted "KILLED").1.gate.barriers
          rw [hgate]
          exact hbarrier rfl) fun A => A.move fun c cyc hc k hk hcov ho => .inr ?_
      refine ⟨ho.1, ?_⟩
      rcases ho.2 with hs | ⟨hin, hs⟩
      · exact .inl hs
      · rcases List.mem_cons.mp hin with rfl | hin
        · exact .inl (hs rfl rfl)
        · exact .inr ⟨hin, by simp⟩
    case h_5 ok hph =>
      obtain rfl : phase = .waiting [] ok := hph
      obtain rfl := Option.some.inj h
      refine W.setKill L C hcases hj rfl (fun i sc _ hi => hi)
        (fun _ => hbarrier rfl) fun A => A.move fun c cyc hc k hk hcov ho => .inr ?_
      exact ho.resolve_right fun hm => by cases hm.2
    case h_6 c₀ todo ok hph =>
      obtain rfl : phase = .waiting (c₀ :: todo) ok := hph
      split at h
      case isTrue hbusy =>
        -- nothing of the scope is inside this activity any more
        obtain rfl := Option.some.inj h
        refine W.setKill L C hcases hj rfl (fun i sc _ hi => hi)
          (fun _ => hbarrier rfl) fun A => A.move fun c cyc hc k hk hcov ho => ?_
        rcases ho with hok | ⟨hs, hin⟩
        · exact .inr (.inl hok)
        · rcases List.mem_cons.mp hin with rfl | hin
          · refine .inl (.inr ⟨fun hin => ?_, .inl hs⟩)
            have : k ∈ s.shared.busy c scope := by
              simp only [Shared.busy, show s.shared.cycles[c]? = some cyc from hc]
              exact Scope.mem_restrict.mpr ⟨hin, hcov⟩
            rw [hbusy] at this
            simp at this
          · exact .inr (.inr ⟨hs, hin⟩)
      case isFalse =>
        split at h
        case isTrue =>
          obtain rfl := Option.some.inj h
          exact W.setKill L C hcases hj rfl (fun i sc _ hi => hi)
            (fun _ => hbarrier rfl) fun A => A.move fun _ _ _ _ _ _ _ => .inr (.inl rfl)
        case isFalse => cases h
    case h_7 ok hph =>
      obtain rfl : phase = .acquired ok := hph
      obtain rfl := Option.some.inj h
      exact W.setKill L C hcases hj rfl (fun i sc hne hi => mem_barrierDown hne hi)
        (fun hup => by cases hup) fun _ => attended_of_not_isUp rfl
    case h_8 => cases h

end Watched

/-- Only the kills' own steps touch the kills and the barriers. -/
theorem step_kills {P : Params} {s s' : State} {a : Act} (h : State.step P s a = some s') :
    (s'.kills = s.kills ∧ s'.shared.gate.barriers = s.shared.gate.barriers) ∨
      (∃ scope, s' = { s with kills := s.kills ++ [{ scope }] }) ∨
      (∃ j timeout, s.stepKill j timeout = some s') ∨
      ∃ j scope todo ok, s.kills[j]? = some ⟨scope, .waiting todo ok⟩ ∧
        s' = { s with shared := { s.shared with gate := s.shared.gate.barrierDown j } }.setKill j
          ⟨scope, .released⟩ := by
  have hwrite {α : Type} {out : Except StoreError (α × InMemoryStore)} {s₁ : State}
      (hw : s.write out = some s₁) :
      s₁.kills = s.kills ∧ s₁.shared.gate.barriers = s.shared.gate.barriers := by
    rcases out with err | ⟨a, st⟩
    · cases hw
    · obtain rfl := Option.some.inj hw
      exact ⟨rfl, rfl⟩
  cases a with
  | thread i o =>
    left
    simp only [State.step, State.stepThread] at h
    split at h
    · cases h
    · split at h
      · obtain ⟨e, he, rfl⟩ := Option.map_eq_some_iff.mp h
        exact ⟨rfl, exec_barriers he⟩
      · cases h
  | submit only m n pre =>
    left
    simp only [State.step, State.submit] at h
    split at h
    · cases h
    · split at h
      · cases h
      · obtain rfl := Option.some.inj h
        exact ⟨rfl, rfl⟩
  | cancelSubmit =>
    left
    obtain ⟨c, -, rfl⟩ := Option.map_eq_some_iff.mp h
    refine ⟨rfl, ?_⟩
    dsimp only
    rw [Shared.cancelScope]
    split <;> rfl
  | abortRetries c how =>
    left
    simp only [State.step] at h
    split at h
    · cases h
    · split at h
      · obtain rfl := Option.some.inj h
        refine ⟨rfl, ?_⟩
        dsimp only
        rw [Shared.abortRetries]
        split <;> rfl
      · cases h
  | shutdown => obtain rfl := Option.some.inj h; exact .inl ⟨rfl, rfl⟩
  | newKill scope => obtain rfl := Option.some.inj h; exact .inr (.inl ⟨scope, rfl⟩)
  | kill j timeout => exact .inr (.inr (.inl ⟨j, timeout, h⟩))
  | refuseKill j =>
    simp only [State.step] at h
    split at h
    case h_1 scope todo ok hj =>
      obtain rfl := Option.some.inj h
      exact .inr (.inr (.inr ⟨j, scope, todo, ok, hj, rfl⟩))
    case h_2 => cases h
  | poll rec st ru cc now =>
    left
    simp only [State.step] at h
    split at h
    · split at h
      · cases h
      · exact hwrite h
    · cases h
  | pollLost | detectLost | markExit | markFlag =>
    left
    simp only [State.step] at h
    split at h
    · exact hwrite h
    · cases h
  | setUserData k data now => exact .inl (hwrite h)
  | removeJob k => exact .inl (hwrite h)
  | addJob | replaceJob =>
    left
    simp only [State.step] at h
    split at h
    · cases h
    · obtain ⟨s₁, hs₁, rfl⟩ := Option.map_eq_some_iff.mp h
      obtain ⟨hk, hb⟩ := hwrite hs₁
      exact ⟨hk, hb⟩
  | removeJobset => obtain rfl := Option.some.inj h; exact .inl ⟨rfl, rfl⟩

theorem Watched.step {P : Params} {s s' : State} {a : Act} (W : Watched s)
    (L : Ledgered s.shared s.threads) (C : Current s.shared s.threads)
    (hleave : LeavesLast s.threads a.ran) (h : State.step P s a = some s') : Watched s' := by
  have hcases := step_cases L.placed h
  rcases step_kills h with ⟨hk, hb⟩ | ⟨scope, rfl⟩ | ⟨j, timeout, hkill⟩ |
      ⟨j, scope, todo, ok, hj, rfl⟩
  · exact W.frame L C hcases hleave hk hb
  · refine ⟨W.covered, W.listed, fun j kl hj hup => ?_, fun j kl hj => ?_⟩
    all_goals
      rcases Nat.lt_or_ge j s.kills.length with hlt | hge
      · rw [List.getElem?_append_left hlt] at hj
        first
        | exact W.barrier j kl hj hup
        | exact W.attended j kl hj
      · rw [List.getElem?_append_right hge, List.getElem?_singleton] at hj
        split at hj
        · obtain rfl := Option.some.inj hj
          first
          | cases hup
          | exact attended_of_not_isUp rfl
        · cases hj
  · exact W.stepKill P L C hkill
  · have hflags : Stepped P s.shared s.threads none
        { s.shared with gate := s.shared.gate.barrierDown j } s.threads :=
      .flags _ s.shared.shutdown id
    exact W.setKill L C hflags hj rfl
      (fun i sc hne hi => mem_barrierDown hne hi) (fun hup => by cases hup)
      fun _ => attended_of_not_isUp rfl

/-! ## Priority -/

/-- The action runs `_leave_inflight` of a key while another task of the same key in the same cycle
is inside the submission section. -/
def leavesEarly (s : State) : Act → Bool
  | .thread i _ =>
    match s.threads[i]? with
    | some ⟨c, .leave k :: _⟩ => s.threads.any fun t => t.cycle = c && t.code.any (·.exposes k)
    | _ => false
  | _ => false

theorem leavesLast_of_leavesEarly {s : State} {a : Act} (h : leavesEarly s a = false) :
    LeavesLast s.threads a.ran := by
  intro i hran t hi k rest hcode t' ht' hc y hy
  cases a with
  | thread i' o =>
    obtain rfl := Option.some.inj hran
    obtain ⟨c, code⟩ := t
    obtain rfl : code = .leave k :: rest := hcode
    simp only [leavesEarly, hi, List.any_eq_false, Bool.and_eq_true, decide_eq_true_eq] at h
    have := h t' ht'
    simp only [not_and, Bool.not_eq_true, List.any_eq_false] at this
    exact by simpa using this hc y hy
  | _ => cases hran

/-- **Kill priority** for one kill in the state `s`: no `run_submit` of a key in its scope is in
progress or about to start, in any cycle; and every job id that one returned for a record that still
exists is in that record. -/
structure Priority (P : Params) (s : State) (scope : Scope) : Prop where
  idle : ∀ t ∈ s.threads, ∀ y ∈ t.code, ∀ k, scope.Covers k → y.submits k = false
  stored : ∀ (c : ℕ) (cyc : Cycle), s.shared.cycles[c]? = some cyc → ∀ k J, scope.Covers k →
    (k, J) ∈ cyc.ledger.returned → ∀ r, s.shared.store.job? P.jobsetId k = some r →
    cyc.ledger.gens.get? k = some r.generation → r.jobId = some J

theorem watched {P : Params} {s : State}
    (h : (system P).ReachableUnder (fun s a => leavesEarly s a = false) s) : Watched s := by
  refine h.invariant (I := Watched) (fun s hs => ?_) fun s a s' hr W hc hs => ?_
  · obtain ⟨hw, hts, hkills⟩ := hs
    refine ⟨fun t ht => by simp [hts] at ht, fun c cyc hc => by simp [hw.cycles] at hc,
      fun j kl hj => by simp [hkills] at hj, fun j kl hj => by simp [hkills] at hj⟩
  · exact W.step (ledgered hr) (current_of_reachable hr) (leavesLast_of_leavesEarly hc) hs

/-- **A kill that has been acquired comes before the submissions**, in every run in which no task
leaves the submission section early. -/
theorem priority_of_acquired {P : Params} {s : State}
    (h : (system P).ReachableUnder (fun s a => leavesEarly s a = false) s) {j : ℕ} {scope : Scope}
    (hj : s.kills[j]? = some ⟨scope, .acquired true⟩) : Priority P s scope := by
  have W := watched h
  have L := ledgered h
  -- an exposed task of the scope is inside a section that the kill found empty
  have hexposed : ∀ t ∈ s.threads, ∀ y ∈ t.code, ∀ k, scope.Covers k → y.exposes k = false := by
    intro t ht y hy k hcov
    by_contra hy'
    rw [Bool.not_eq_false] at hy'
    obtain ⟨cyc, hc⟩ : ∃ cyc, s.shared.cycles[t.cycle]? = some cyc :=
      ⟨_, List.getElem?_eq_getElem (L.known t ht)⟩
    have A := L.cycles _ cyc hc
    have hheld : k ∈ held cyc.keys t.cycle s.threads := Multiset.mem_of_le
      (codeUnits_le_held ht rfl) (mem_codeUnits hy (Instr.units_of_exposes hy' _))
    rcases W.attended j _ hj _ cyc hc k (A.held_subset hheld) hcov with hq | ho
    · rcases hq with hf | ⟨hin, -⟩
      · simp [(A.idle hf).1] at hheld
      · exact hin (W.covered t ht cyc hc y hy k hy')
    · cases ho
  refine ⟨fun t ht y hy k hcov => ?_, fun c cyc hc k J hcov hret r hr hg => ?_⟩
  · by_contra hrun
    rw [Bool.not_eq_false] at hrun
    have := Instr.exposes_of_submits hrun
    simp [hexposed t ht y hy k hcov] at this
  · rcases (tracked h).returned c cyc hc (k, J) hret with ⟨t, ht, -, hs⟩ | ⟨g, hg', hrec⟩
    · have := hexposed t ht _ hs k hcov
      simp [Instr.exposes] at this
    · exact (hrec r hr (Option.some.inj (hg.symm.trans hg'))).1

/-- A submission whose only attempt is under way when a kill of the whole jobset is queued; the kill
waits for it. -/
def oneJobKilled : List Act :=
  [[.submit none 0 2 false], threadSteps 0 12, threadSteps 1 4, [.newKill none], killSteps 0 4,
    submitResult 1 (.jobId 7), threadSteps 1 8, killSteps 0 2].flatten

/-- The run of a kill that waits for the attempt under way. -/
theorem priority_of_acquired_oneJob : ∃ s,
    (system oneJobParams).runUnder (fun s a => !leavesEarly s a) oneJob oneJobKilled = some s ∧
      s.kills[0]? = some ⟨none, .acquired true⟩ ∧ Priority oneJobParams s none := by
  have hrun : ((system oneJobParams).runUnder (fun s a => !leavesEarly s a) oneJob
      oneJobKilled).bind (fun s => s.kills[0]?) = some ⟨none, .acquired true⟩ := by decide +kernel
  obtain ⟨s, hs, hj⟩ := Option.bind_eq_some_iff.mp hrun
  refine ⟨s, hs, hj, priority_of_acquired (System.reachableUnder_of_runUnder ?_
    (.init oneJob_init) hs) hj⟩
  exact fun s a h => by simpa using h

/-- The retry overtakes the attempt it repeats: it has entered the section when that one leaves. -/
def oneJobOvertaken : List Act :=
  [oneJobRetrying, threadSteps 4 4, threadSteps 1 1, threadSteps 4 2, threadSteps 1 1,
    [.newKill none], killSteps 0 6].flatten

/-- **Kill priority fails** where a task leaves early: the kill is acquired, and the retry's
`run_submit` is still to come. -/
theorem priority_fails : ¬∀ s : State, (system oneJobParams).Reachable s →
    ∀ (j : ℕ) (scope : Scope), s.kills[j]? = some ⟨scope, .acquired true⟩ →
      Priority oneJobParams s scope := by
  intro h
  have hrun : ((system oneJobParams).run oneJob oneJobOvertaken).map (fun s =>
      (s.kills[0]?, s.threads.any fun t => t.code.any (·.submits "a")))
      = some (some ⟨none, .acquired true⟩, true) := by decide +kernel
  obtain ⟨s, hs, hpair⟩ := Option.map_eq_some_iff.mp hrun
  obtain ⟨hj, hany⟩ := Prod.mk.inj hpair
  obtain ⟨t, ht, hcode⟩ := List.any_eq_true.mp hany
  obtain ⟨y, hy, hsub⟩ := List.any_eq_true.mp hcode
  have hidle := (h s (System.reachable_of_run (.init oneJob_init) hs) 0 none hj).idle t ht y hy "a"
    trivial
  rw [hidle] at hsub
  cases hsub

end Lsfmgr.Submit
