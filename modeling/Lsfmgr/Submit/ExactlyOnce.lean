import Mathlib
import Lsfmgr.Submit.Accounting
import Lsfmgr.Submit.Steps

/-!
# Submit/ExactlyOnce — the accounting of the submit cycles, in every reachable state

`Accounts` is what one cycle's books say, `Ledgered` what holds of the whole system; every kind of
step keeps it (`Ledgered.step`), so every reachable state has it (`ledgered`).  The result is that a
unit is counted at most once, a retry entry settled at most once, and a cycle finished at most once,
with a report that adds up.
-/

namespace Lsfmgr.Submit

open Machinery

/-- The reports the cycle `c` has been finished with. -/
def reportsOf (c : ℕ) (log : List (ℕ × Signal)) : List SubmitReport :=
  log.filterMap fun e => if e.1 = c then e.2.report? else none

theorem reportsOf_append (c : ℕ) (log log' : List (ℕ × Signal)) :
    reportsOf c (log ++ log') = reportsOf c log ++ reportsOf c log' := List.filterMap_append

theorem reportsOf_own (c : ℕ) (signals : List Signal) :
    reportsOf c (signals.map fun s => (c, s)) = signals.filterMap Signal.report? := by
  simp [reportsOf, List.filterMap_map]

theorem reportsOf_other {c c' : ℕ} (h : c' ≠ c) (signals : List Signal) :
    reportsOf c' (signals.map fun s => (c, s)) = [] := by
  simp [reportsOf, List.filterMap_map, Ne.symm h]

theorem mem_reportsOf {c : ℕ} {log : List (ℕ × Signal)} {rep : SubmitReport} :
    rep ∈ reportsOf c log ↔ (c, Signal.finished rep) ∈ log := by
  rw [reportsOf, List.mem_filterMap]
  constructor
  · rintro ⟨⟨c', sig⟩, hmem, h⟩
    split at h
    case isTrue hc =>
      cases sig with
      | finished rep' => obtain rfl := Option.some.inj h; rwa [← hc]
      | _ => cases h
    case isFalse => cases h
  · exact fun h => ⟨_, h, by simp [Signal.report?]⟩

/-! ## The books of one cycle -/

/-- The books of the cycle `c`, among these threads. -/
structure Accounts (c : ℕ) (cyc : Cycle) (threads : List Thread) (nextSerial : ℕ)
    (log : List (ℕ × Signal)) : Prop where
  units : (cyc.ledger.counted : Multiset Key) + held cyc.keys c threads + cyc.pendingKeys = cyc.keys
  nodup : cyc.keys.Nodup
  counters : Counters cyc
  /-- The thread that launches the cycle holds whatever is not counted. -/
  launching : ∀ t ∈ threads, t.cycle = c → LaunchShaped t.code →
    (cyc.ledger.counted : Multiset Key) + codeUnits cyc.keys t.code = cyc.keys
  serials : Serials cyc nextSerial
  once : (reportsOf c log).length ≤ cyc.finished.toNat
  balanced : ∀ rep ∈ reportsOf c log, rep.Balanced cyc.total

/-- The units a thread of the cycle holds are part of what the pool holds. -/
theorem codeUnits_le_held {all : List Key} {c : ℕ} {ts : List Thread} {t : Thread} (ht : t ∈ ts)
    (hc : t.cycle = c) : codeUnits all t.code ≤ held all c ts := by
  have h := le_sum_of_mem (fun t : Thread => if t.cycle = c then codeUnits all t.code else 0) ht
  rwa [if_pos hc] at h

/-- The units of the first instruction of a thread, likewise. -/
theorem units_le_held {all : List Key} {c : ℕ} {ts : List Thread} {t : Thread} {x : Instr}
    {rest : List Instr} (ht : t ∈ ts) (hc : t.cycle = c) (hcode : t.code = x :: rest) :
    x.units all ≤ held all c ts := by
  refine le_trans ?_ (codeUnits_le_held ht hc)
  rw [hcode, codeUnits_cons]
  exact Multiset.le_add_right _ _

/-- What the pool holds moves by what the thread's instruction does to its units. -/
theorem held_replaceAt (all : List Key) {c : ℕ} {ts : List Thread} {i : ℕ} {x : Instr}
    {rest : List Instr} (code : List Instr) (spawned : List (List Instr))
    (hi : ts[i]? = some ⟨c, x :: rest⟩) :
    held all c (replaceAt ts i (⟨c, code ++ rest⟩ :: spawned.map (Thread.mk c))) + x.units all
      = held all c ts + codeUnits all code + (spawned.map (codeUnits all)).sum := by
  have h := sum_replaceAt (fun t : Thread => if t.cycle = c then codeUnits all t.code else 0) hi
    (⟨c, code ++ rest⟩ :: spawned.map (Thread.mk c))
  simp only [if_pos, List.map_cons, List.sum_cons, List.map_map, Function.comp_def,
    codeUnits_append, codeUnits_cons] at h
  have h' : held all c (replaceAt ts i (⟨c, code ++ rest⟩ :: spawned.map (Thread.mk c)))
      + x.units all + codeUnits all rest
      = held all c ts + codeUnits all code + (spawned.map (codeUnits all)).sum
        + codeUnits all rest := by
    rw [held, held, add_assoc, h]
    abel
  exact add_right_cancel h'

/-- A thread of another cycle changes nothing here. -/
theorem held_replaceAt_of_ne {all : List Key} {c c' : ℕ} {ts : List Thread} {i : ℕ} {t : Thread}
    {code : List Instr} {spawned : List (List Instr)} (hi : ts[i]? = some t) (ht : t.cycle = c)
    (hne : c ≠ c') :
    held all c' (replaceAt ts i (⟨c, code⟩ :: spawned.map (Thread.mk c))) = held all c' ts := by
  have h := sum_replaceAt (fun t : Thread => if t.cycle = c' then codeUnits all t.code else 0) hi
    (⟨c, code⟩ :: spawned.map (Thread.mk c))
  rw [held, held]
  simpa [ht, hne, List.map_map, Function.comp_def] using h

namespace Accounts

variable {c : ℕ} {cyc : Cycle} {ts : List Thread} {n : ℕ} {log : List (ℕ × Signal)}

theorem card (A : Accounts c cyc ts n log) :
    cyc.done + Multiset.card (held cyc.keys c ts) + Multiset.card cyc.pendingKeys = cyc.total := by
  have h := congrArg Multiset.card A.units
  simpa [A.counters.done, Cycle.keys, Cycle.total] using h

theorem done_le (A : Accounts c cyc ts n log) : cyc.done ≤ cyc.total := by
  have := A.card
  omega

/-- A finished cycle holds no unit any more, and no retry waits. -/
theorem idle (A : Accounts c cyc ts n log) (hf : cyc.finished = true) :
    held cyc.keys c ts = 0 ∧ cyc.pendingKeys = 0 := by
  have h := A.card
  have hd := A.counters.finished hf
  exact ⟨Multiset.card_eq_zero.mp (by omega), Multiset.card_eq_zero.mp (by omega)⟩

theorem held_nodup (A : Accounts c cyc ts n log) : (held cyc.keys c ts).Nodup := by
  refine Multiset.nodup_of_le ?_ (Multiset.coe_nodup.mpr A.nodup)
  rw [← A.units]
  exact (Multiset.le_add_left _ _).trans (Multiset.le_add_right _ _)

/-- A unit some thread holds is one of the keys, and is not counted yet. -/
theorem held_subset (A : Accounts c cyc ts n log) {k : Key} (hk : k ∈ held cyc.keys c ts) :
    k ∈ cyc.keys := by
  refine Multiset.mem_coe.mp (A.units ▸ ?_)
  exact Multiset.mem_add.mpr (.inl (Multiset.mem_add.mpr (.inr hk)))

theorem not_counted (A : Accounts c cyc ts n log) {k : Key} (hk : k ∈ held cyc.keys c ts) :
    k ∉ cyc.ledger.counted := by
  have hnd : ((cyc.ledger.counted : Multiset Key) + held cyc.keys c ts).Nodup := by
    refine Multiset.nodup_of_le ?_ (Multiset.coe_nodup.mpr A.nodup)
    rw [← A.units]
    exact Multiset.le_add_right _ _
  exact fun hc => Multiset.disjoint_left.mp (Multiset.nodup_add.mp hnd).2.2
    (Multiset.mem_coe.mpr hc) hk

/-- A unit some thread holds is not waiting for a retry. -/
theorem not_pending (A : Accounts c cyc ts n log) {k : Key} (hk : k ∈ held cyc.keys c ts) :
    k ∉ cyc.pendingKeys := by
  have hnd : (held cyc.keys c ts + cyc.pendingKeys).Nodup := by
    refine Multiset.nodup_of_le ?_ (Multiset.coe_nodup.mpr A.nodup)
    rw [← A.units, add_assoc]
    exact Multiset.le_add_left _ _
  exact fun hp => Multiset.disjoint_left.mp (Multiset.nodup_add.mp hnd).2.2 hk hp

theorem counted_nodup (A : Accounts c cyc ts n log) : cyc.ledger.counted.Nodup := by
  refine Multiset.coe_nodup.mp (Multiset.nodup_of_le ?_ (Multiset.coe_nodup.mpr A.nodup))
  rw [← A.units, add_assoc]
  exact Multiset.le_add_right _ _

theorem counted_subset (A : Accounts c cyc ts n log) {k : Key} (hk : k ∈ cyc.ledger.counted) :
    k ∈ cyc.keys := by
  refine Multiset.mem_coe.mp (A.units ▸ ?_)
  exact Multiset.mem_add.mpr (.inl (Multiset.mem_add.mpr (.inl (Multiset.mem_coe.mpr hk))))

/-- Other cycles' steps leave the books of this one as they are. -/
theorem frame (A : Accounts c cyc ts n log) {ts' : List Thread} {n' : ℕ}
    {log' : List (ℕ × Signal)} (hheld : held cyc.keys c ts' = held cyc.keys c ts)
    (hts : ∀ t ∈ ts', t.cycle = c → t ∈ ts ∨ Launched t.code) (hn : n ≤ n')
    (hlog : reportsOf c log' = reportsOf c log) : Accounts c cyc ts' n' log' where
  units := hheld ▸ A.units
  nodup := A.nodup
  counters := A.counters
  launching t ht hc hl := by
    rcases hts t ht hc with h | h
    · exact A.launching t h hc hl
    · exact absurd hl h.not_launchShaped
  serials := A.serials.mono hn
  once := hlog ▸ A.once
  balanced := hlog ▸ A.balanced

section Exec

variable {P : Params} {o : Oracle} {w : Shared} {x : Instr} {rest : List Instr} {e : Effect}
  {i : ℕ}

/-- **One instruction of the cycle keeps its books.** -/
theorem exec (A : Accounts c cyc ts w.nextSerial w.log) (hp : w.store.Placed)
    (hshape : Launched (x :: rest) ∨ LaunchShaped (x :: rest))
    (hi : ts[i]? = some ⟨c, x :: rest⟩) (h : Submit.exec P o c cyc w x = some e) :
    Accounts c e.cyc (replaceAt ts i (⟨c, e.code ++ rest⟩ :: e.spawned.map (Thread.mk c)))
      e.nextSerial (w.log ++ e.signals.map fun s => (c, s)) := by
  have hmem : (⟨c, x :: rest⟩ : Thread) ∈ ts := List.mem_of_getElem? hi
  have hle : x.units cyc.keys ≤ held cyc.keys c ts := units_le_held hmem rfl rfl
  have hfin : cyc.finished = true → x.units cyc.keys = 0 := fun hf =>
    Multiset.le_zero.mp ((A.idle hf).1 ▸ hle)
  have hpend : ∀ k ∈ x.units cyc.keys, k ∉ cyc.pendingKeys := fun k hk =>
    A.not_pending (Multiset.mem_of_le hle hk)
  have hkeys : e.cyc.keys = cyc.keys := congrArg (List.map Prod.fst) (exec_keyed h)
  have htotal : e.cyc.total = cyc.total := congrArg List.length (exec_keyed h)
  have hunits := exec_units hp hfin hpend h
  -- a forced ending is the last instruction of the launch
  have hforced : x.isForced = true →
      cyc.done + Multiset.card (x.units cyc.keys) = cyc.total := by
    intro hx
    have hrest := hshape.resolve_left (not_launched_of_isForced hx)
    obtain rfl := hrest.rest_eq_nil (Instr.isLaunch_of_isForced hx)
    have := congrArg Multiset.card (A.launching _ hmem rfl hrest)
    simpa [A.counters.done, Cycle.keys, Cycle.total] using this
  obtain ⟨hcounters, honce, hbal⟩ := exec_counters A.counters A.done_le hfin hforced h
  obtain ⟨hserials, hnext⟩ := exec_serials A.serials hpend h
  have hsum : (e.cyc.ledger.counted : Multiset Key)
      + held e.cyc.keys c
        (replaceAt ts i (⟨c, e.code ++ rest⟩ :: e.spawned.map (Thread.mk c)))
      + e.cyc.pendingKeys = e.cyc.keys := by
    rw [hkeys]
    have hheld := held_replaceAt cyc.keys e.code e.spawned hi
    refine add_right_cancel (b := x.units cyc.keys) ?_
    calc _ = (e.cyc.ledger.counted : Multiset Key)
          + (held cyc.keys c (replaceAt ts i (⟨c, e.code ++ rest⟩ :: e.spawned.map (Thread.mk c)))
            + x.units cyc.keys) + e.cyc.pendingKeys := by abel
      _ = held cyc.keys c ts + ((e.cyc.ledger.counted : Multiset Key) + codeUnits cyc.keys e.code
            + (e.spawned.map (codeUnits cyc.keys)).sum + e.cyc.pendingKeys) := by rw [hheld]; abel
      _ = (cyc.ledger.counted : Multiset Key) + held cyc.keys c ts + cyc.pendingKeys
            + x.units cyc.keys := by rw [hunits]; abel
      _ = _ := by rw [A.units]
  refine ⟨hsum, hkeys ▸ A.nodup, hcounters, fun t' ht' hc' hl' => ?_, hserials, ?_, ?_⟩
  · rcases mem_replaceAt ht' with hold | hnew
    · -- another thread launches the cycle: what is counted only grows, and nothing else is held
      refine le_antisymm ?_ ?_
      · rw [← hsum]
        exact (add_le_add_right (codeUnits_le_held ht' hc') _).trans (Multiset.le_add_right _ _)
      · rw [hkeys, ← A.launching t' hold hc' hl']
        obtain ⟨l, hl⟩ := exec_counted h
        refine add_le_add_left ?_ _
        rw [hl, ← Multiset.coe_add]
        exact Multiset.le_add_right _ _
    · have hne : LaunchShaped (x :: rest) := by
        refine hshape.resolve_left fun hlaunched => ?_
        obtain ⟨h₁, h₂⟩ := exec_launched (hlaunched x List.mem_cons_self) h
        rcases List.mem_cons.mp hnew with rfl | hsp
        · refine absurd hl' (Launched.not_launchShaped fun y hy => ?_)
          rcases List.mem_append.mp hy with hy | hy
          · exact h₁ y hy
          · exact hlaunched y (List.mem_cons_of_mem _ hy)
        · obtain ⟨code, hcode, rfl⟩ := List.mem_map.mp hsp
          exact absurd hl' (h₂ code hcode).not_launchShaped
      obtain ⟨hspawned, hpending⟩ := exec_launchShaped hne h
      rw [hspawned] at hnew hunits
      obtain rfl := List.mem_singleton.mp hnew
      have hcounted : (e.cyc.ledger.counted : Multiset Key) + codeUnits cyc.keys e.code
          = (cyc.ledger.counted : Multiset Key) + x.units cyc.keys := by
        refine add_right_cancel (b := e.cyc.pendingKeys) ?_
        have hpk : e.cyc.pendingKeys = cyc.pendingKeys := by
          rw [Cycle.pendingKeys, hpending, Cycle.pendingKeys]
        rw [hpk] at hunits ⊢
        simpa using hunits
      rw [hkeys, codeUnits_append, ← add_assoc, hcounted, ← A.launching _ hmem rfl hne,
        codeUnits_cons, add_assoc]
  · rw [reportsOf_append, List.length_append, reportsOf_own]
    have := A.once
    omega
  · rw [reportsOf_append, reportsOf_own, htotal]
    exact fun rep hrep => (List.mem_append.mp hrep).elim (A.balanced rep) (hbal rep)

end Exec

/-- Raising cancel flags touches no book. -/
theorem cancel (A : Accounts c cyc ts n log) (scope : Scope) :
    Accounts c (cyc.cancel scope) ts n log := by
  cases scope with
  | none => exact ⟨A.units, A.nodup, ⟨A.counters.done, A.counters.split, A.counters.finished⟩,
      A.launching, ⟨A.serials.balance, A.serials.nodup, A.serials.lt⟩, A.once, A.balanced⟩
  | some ks => exact ⟨A.units, A.nodup, ⟨A.counters.done, A.counters.split, A.counters.finished⟩,
      A.launching, ⟨A.serials.balance, A.serials.nodup, A.serials.lt⟩, A.once, A.balanced⟩

/-- Aborting retries hands their units to the thread that gives them up. -/
theorem abort (A : Accounts c cyc ts n log) (how : Settlement) (ks : List Key)
    (reason : String) :
    Accounts c (cyc.popRetries how ks).2
      (ts ++ [⟨c, (cyc.popRetries how ks).1.map fun k => .giveUp k reason⟩]) n log := by
  obtain ⟨hkeys, hserials, pend, settled, heq⟩ := Cycle.popRetries_spec how ks cyc
  have hgive (popped : List Key) :
      codeUnits cyc.keys (popped.map fun k => .giveUp k reason) = popped := by
    induction popped with
    | nil => rfl
    | cons k popped ih =>
      rw [List.map_cons, codeUnits_cons, ih]
      rfl
  have hser := hserials n A.serials
  generalize hpk : (cyc.popRetries how ks).2.pendingKeys = pk at hkeys
  generalize (cyc.popRetries how ks).1 = popped at hkeys ⊢
  generalize (cyc.popRetries how ks).2 = cyc' at *
  subst heq
  refine ⟨?_, A.nodup, ⟨A.counters.done, A.counters.split, A.counters.finished⟩, ?_, hser, A.once,
    A.balanced⟩
  · have hheld : held cyc.keys c (ts ++ [⟨c, popped.map fun k => .giveUp k reason⟩])
        = held cyc.keys c ts + popped := by simp [held, hgive]
    change (cyc.ledger.counted : Multiset Key) + held cyc.keys c _ + _ = (cyc.keys : Multiset Key)
    rw [hpk, hheld, ← A.units, hkeys]
    abel
  · intro t ht hc hl
    rcases List.mem_append.mp ht with ht | ht
    · exact A.launching t ht hc hl
    · obtain rfl := List.mem_singleton.mp ht
      refine absurd hl (Launched.not_launchShaped fun y hy => ?_)
      obtain ⟨k, -, rfl⟩ := List.mem_map.mp hy
      rfl

end Accounts

/-! ## The books of the system -/

/-- What holds of the shared state and the threads in every reachable state. -/
structure Ledgered (w : Shared) (ts : List Thread) : Prop where
  placed : w.store.Placed
  cycles : ∀ c cyc, w.cycles[c]? = some cyc → Accounts c cyc ts w.nextSerial w.log
  shape : ∀ t ∈ ts, Launched t.code ∨ LaunchShaped t.code
  known : ∀ t ∈ ts, t.cycle < w.cycles.length
  logged : ∀ entry ∈ w.log, entry.1 < w.cycles.length

theorem held_of_not_known (all : List Key) {c : ℕ} {ts : List Thread}
    (h : ∀ t ∈ ts, t.cycle ≠ c) : held all c ts = 0 := by
  rw [held]
  refine List.sum_eq_zero fun m hm => ?_
  obtain ⟨t, ht, rfl⟩ := List.mem_map.mp hm
  exact if_neg (h t ht)

theorem reportsOf_of_not_logged {c : ℕ} {log : List (ℕ × Signal)} (h : ∀ e ∈ log, e.1 ≠ c) :
    reportsOf c log = [] :=
  List.filterMap_eq_nil_iff.mpr fun e he => if_neg (h e he)

namespace Ledgered

variable {P : Params} {w w' : Shared} {ts ts' : List Thread} {ran : Option ℕ}

/-- The books when a thread has run one instruction. -/
theorem thread (L : Ledgered w ts) {i : ℕ} {o : Oracle} {t : Thread} {x : Instr}
    {rest : List Instr} {cyc : Cycle} {e : Effect} (hi : ts[i]? = some t)
    (hcode : t.code = x :: rest) (hcyc : w.cycles[t.cycle]? = some cyc)
    (h : exec P o t.cycle cyc w x = some e) (hplaced : e.store.Placed) :
    Ledgered (w.apply t.cycle e)
      (replaceAt ts i (⟨t.cycle, e.code ++ rest⟩ :: e.spawned.map (Thread.mk t.cycle))) := by
  obtain ⟨c, code⟩ := t
  obtain rfl : code = x :: rest := hcode
  have hmem := List.mem_of_getElem? hi
  have hlt : c < w.cycles.length := L.known _ hmem
  obtain ⟨hshape, hspawned⟩ := exec_shape (L.shape _ hmem) h
  have hpend : ∀ k ∈ x.units cyc.keys, k ∉ cyc.pendingKeys := fun k hk =>
    (L.cycles c cyc hcyc).not_pending (Multiset.mem_of_le (units_le_held hmem rfl rfl) hk)
  have hnew : ∀ t' ∈ replaceAt ts i (⟨c, e.code ++ rest⟩ :: e.spawned.map (Thread.mk c)),
      t' ∈ ts ∨ t'.cycle = c ∧ (Launched t'.code ∨ LaunchShaped t'.code) := by
    intro t' ht'
    rcases mem_replaceAt ht' with ht' | ht'
    · exact .inl ht'
    · rcases List.mem_cons.mp ht' with rfl | ht'
      · exact .inr ⟨rfl, hshape⟩
      · obtain ⟨code, hcode, rfl⟩ := List.mem_map.mp ht'
        exact .inr ⟨rfl, .inl (hspawned code hcode)⟩
  refine ⟨hplaced, fun c' cyc' hc' => ?_, fun t' ht' => ?_, fun t' ht' => ?_, fun en hen => ?_⟩
  · simp only [Shared.apply, List.getElem?_set] at hc'
    split at hc'
    case isTrue heq =>
      subst heq
      obtain rfl : e.cyc = cyc' := by simpa [hlt] using hc'
      exact (L.cycles c cyc hcyc).exec L.placed (L.shape _ hmem) hi h
    case isFalse hne =>
      refine (L.cycles c' cyc' hc').frame (held_replaceAt_of_ne hi rfl hne) (fun t' ht' hct => ?_)
        (exec_serials (L.cycles c cyc hcyc).serials hpend h).2 ?_
      · exact (hnew t' ht').imp_right fun hc => absurd (hc.1.symm.trans hct) hne
      · simp only [Shared.apply]
        rw [reportsOf_append, reportsOf_other (Ne.symm hne), List.append_nil]
  · exact (hnew t' ht').elim (L.shape t') (·.2)
  · simpa [Shared.apply] using (hnew t' ht').elim (L.known t') fun hc => hc.1 ▸ hlt
  · simp only [Shared.apply, List.length_set]
    rcases List.mem_append.mp hen with hen | hen
    · exact L.logged en hen
    · obtain ⟨sig, -, rfl⟩ := List.mem_map.mp hen
      exact hlt

/-- The books when a cycle has been created. -/
theorem submit (L : Ledgered w ts) {cyc : Cycle} {preSubmit : Bool} (hnd : cyc.keys.Nodup)
    (hcyc : ∃ keyed maxRetry slotLimit, cyc = { keyed, maxRetry, slotLimit }) :
    Ledgered { w with cycles := w.cycles ++ [cyc], contexts := some w.cycles.length }
      (ts ++ [⟨w.cycles.length, [.register preSubmit]⟩]) := by
  have hmem : ∀ t' ∈ ts ++ [(⟨w.cycles.length, [.register preSubmit]⟩ : Thread)],
      t' ∈ ts ∨ t' = ⟨w.cycles.length, [.register preSubmit]⟩ := fun t' ht' =>
    (List.mem_append.mp ht').imp_right List.mem_singleton.mp
  refine ⟨L.placed, fun c' cyc' hc' => ?_, fun t' ht' => ?_, fun t' ht' => ?_, fun en hen => ?_⟩
  · rcases lt_trichotomy c' w.cycles.length with hlt | rfl | hgt
    · rw [List.getElem?_append_left hlt] at hc'
      refine (L.cycles c' cyc' hc').frame ?_ (fun t' ht' hct => ?_) le_rfl rfl
      · simp [held, hlt.ne']
      · rcases hmem t' ht' with h | rfl
        · exact .inl h
        · exact absurd hct hlt.ne'
    · obtain rfl : cyc = cyc' := by simpa using hc'
      have hheld : held cyc.keys w.cycles.length
          (ts ++ [⟨w.cycles.length, [.register preSubmit]⟩]) = cyc.keys := by
        have := held_of_not_known cyc.keys fun t ht => (L.known t ht).ne
        simp only [held] at this
        simp [held, this, Instr.units]
      have hrep := reportsOf_of_not_logged fun en hen => (L.logged en hen).ne
      obtain ⟨keyed, maxRetry, slotLimit, rfl⟩ := hcyc
      refine ⟨?_, hnd, ⟨rfl, rfl, fun h => by cases h⟩, fun t' ht' hct hl => ?_,
        ⟨rfl, List.nodup_nil, by simp⟩, ?_, ?_⟩
      · rw [hheld]
        simp [Cycle.pendingKeys, show (∅ : Dict Key PendingRetry).entries = [] from rfl]
      · rcases hmem t' ht' with h | rfl
        · exact absurd hct (L.known t' h).ne
        · simp [Instr.units]
      · simp [hrep]
      · simp [hrep]
    · rw [List.getElem?_eq_none (by simpa using hgt)] at hc'
      cases hc'
  · rcases hmem t' ht' with h | rfl
    · exact L.shape t' h
    · exact .inr (launchShaped_singleton rfl)
  · rcases hmem t' ht' with h | rfl
    · simpa using Nat.lt_succ_of_lt (L.known t' h)
    · simp
  · simpa using Nat.lt_succ_of_lt (L.logged en hen)

/-- The books when only the flags, the retries and the threads of one cycle have changed. -/
theorem setCycle (L : Ledgered w ts) {c : ℕ} {cyc cyc' : Cycle} {code : List Instr}
    {more : List Thread} (hc : w.cycles[c]? = some cyc) (hmore : ∀ t ∈ more, t = ⟨c, code⟩)
    (hcode : Launched code) (A : Accounts c cyc' (ts ++ more) w.nextSerial w.log) :
    Ledgered (w.setCycle c cyc') (ts ++ more) := by
  have hlt := (List.getElem?_eq_some_iff.mp hc).1
  refine ⟨L.placed, fun d cyd hd => ?_, fun t' ht' => ?_, fun t' ht' => ?_, fun en hen => ?_⟩
  · rw [Shared.cycles_setCycle hc] at hd
    split at hd
    case isTrue heq =>
      subst heq
      obtain rfl := Option.some.inj hd
      exact A
    case isFalse hne =>
      have hother : ∀ t ∈ more, t.cycle ≠ d := fun t ht => by
        rw [hmore t ht]; exact Ne.symm hne
      refine (L.cycles d cyd hd).frame ?_ (fun t' ht' hct => ?_) le_rfl rfl
      · have := held_of_not_known cyd.keys hother
        rw [held] at this
        rw [held, List.map_append, List.sum_append, this, add_zero, held]
      · exact (List.mem_append.mp ht').imp_right fun h => absurd hct (hother t' h)
  · exact (List.mem_append.mp ht').elim (L.shape t') fun h => .inl (by rw [hmore t' h]; exact hcode)
  · simp only [Shared.setCycle, List.length_set]
    exact (List.mem_append.mp ht').elim (L.known t') fun h => by rw [hmore t' h]; exact hlt
  · simpa [Shared.setCycle] using L.logged en hen

/-- **Every kind of step keeps the books.** -/
theorem step (L : Ledgered w ts) (h : Stepped P w ts ran w' ts')
    (hplaced : w'.store.Placed) : Ledgered w' ts' := by
  cases h with
  | thread hi hcode hcyc hexec => exact L.thread hi hcode hcyc hexec hplaced
  | submit hact hnd hcyc => exact L.submit hnd hcyc
  | @cancel c cyc scope hc =>
    have A := (L.cycles c cyc hc).cancel scope
    rw [← List.append_nil ts] at A ⊢
    have hnil : ∀ t ∈ ([] : List Thread), t = ⟨c, []⟩ := by simp
    exact L.setCycle hc hnil (by simp [Launched]) A
  | @abort c cyc scope how reason hc =>
    refine L.setCycle hc (fun t ht => List.mem_singleton.mp ht) (fun y hy => ?_)
      ((L.cycles c cyc hc).abort how _ reason)
    obtain ⟨k, -, rfl⟩ := List.mem_map.mp hy
    rfl
  | write => exact ⟨hplaced, L.cycles, L.shape, L.known, L.logged⟩
  | flags => exact ⟨hplaced, L.cycles, L.shape, L.known, L.logged⟩

end Ledgered

/-- A step keeps the placement of the records. -/
theorem Stepped.placed {P : Params} {w w' : Shared} {ts ts' : List Thread} {ran : Option ℕ}
    (h : Stepped P w ts ran w' ts') (hp : w.store.Placed) : w'.store.Placed := by
  cases h with
  | thread _ _ _ hexec => exact exec_placed hp hexec
  | write _ _ hk => exact hk.placed
  | submit | cancel | abort | flags => exact hp

theorem Shared.Initial.ledgered {P : Params} {w : Shared} (h : w.Initial P) : Ledgered w [] :=
  ⟨h.placed, fun c cyc hc => by simp [h.cycles] at hc, by simp, by simp, by simp [h.log]⟩

variable {P : Params}

/-- **Every reachable state has its books in order.** -/
theorem ledgered {C : State → Act → Prop} {s : State} (h : (system P).ReachableUnder C s) :
    Ledgered s.shared s.threads := by
  refine h.invariant (I := fun s => Ledgered s.shared s.threads) (fun s hs => ?_)
    fun s a s' _ ih _ hstep => ?_
  · rw [hs.2.1]
    exact hs.1.ledgered
  · have hcases := step_cases ih.placed hstep
    exact ih.step hcases (hcases.placed ih.placed)

/-- What is true of a property of the shared state and the threads that holds initially and is kept
by every kind of step between states whose books are in order. -/
theorem invariant_of_stepped {I : Shared → List Thread → Prop}
    (hinit : ∀ w, w.Initial P → I w [])
    (hstep : ∀ w ts ran w' ts', Ledgered w ts → I w ts → Stepped P w ts ran w' ts' → I w' ts')
    {C : State → Act → Prop} {s : State} (h : (system P).ReachableUnder C s) :
    I s.shared s.threads := by
  refine h.invariant (I := fun s => I s.shared s.threads) (fun s hs => ?_)
    fun s a s' hr ih _ hs => ?_
  · rw [hs.2.1]
    exact hinit _ hs.1
  · exact hstep _ _ _ _ _ (ledgered hr) ih (step_cases (ledgered hr).placed hs)

/-! ## Exactly once -/

/-- The accounting of one cycle, as its observers rely on it. -/
structure ExactlyOnce (c : ℕ) (cyc : Cycle) (log : List (ℕ × Signal)) : Prop where
  done_eq : cyc.done = cyc.succeeded + cyc.failed + cyc.cancelled
  done_le : cyc.done ≤ cyc.total
  /-- Every counted unit is one of the cycle's keys, counted once. -/
  counted_length : cyc.ledger.counted.length = cyc.done
  counted_nodup : cyc.ledger.counted.Nodup
  counted_subset : ∀ k ∈ cyc.ledger.counted, k ∈ cyc.keys
  /-- A registered retry entry waits, or has been settled in exactly one way. -/
  retry_settled : ∀ n ∈ cyc.ledger.registered,
    Xor (n ∈ cyc.pendingSerials) (∃! how, (n, how) ∈ cyc.ledger.settled)
  retry_settled_once : (cyc.ledger.settled.map Prod.fst).Nodup
  /-- No retry entry outlives the cycle. -/
  retry_none : cyc.finished = true → cyc.pendingRetries.keys = []
  finished_once : (reportsOf c log).length ≤ 1
  report_balanced : ∀ rep, (c, Signal.finished rep) ∈ log →
    rep.total = cyc.total ∧ rep.succeeded + rep.failed + rep.cancelled = rep.total

theorem Serials.settled_nodup {cyc : Cycle} {n : ℕ} (hs : Serials cyc n) :
    (cyc.ledger.settled.map Prod.fst).Nodup ∧
      ∀ m ∈ cyc.ledger.settled.map Prod.fst, m ∉ cyc.pendingSerials := by
  have hnd := Multiset.coe_nodup.mpr hs.nodup
  rw [← hs.balance, Multiset.nodup_add] at hnd
  exact ⟨Multiset.coe_nodup.mp hnd.1, fun m hm => Multiset.disjoint_left.mp hnd.2.2 hm⟩

/-- A list of pairs without a repeated first component has one second component for each. -/
theorem existsUnique_of_nodup {α β : Type*} {l : List (α × β)} (hl : (l.map Prod.fst).Nodup)
    {a : α} (ha : a ∈ l.map Prod.fst) : ∃! b, (a, b) ∈ l := by
  obtain ⟨⟨a, b⟩, hab, rfl⟩ := List.mem_map.mp ha
  refine ⟨b, hab, fun b' hb' => ?_⟩
  exact congrArg Prod.snd (List.inj_on_of_nodup_map hl hb' hab rfl)

theorem Accounts.exactlyOnce {c : ℕ} {cyc : Cycle} {ts : List Thread} {n : ℕ}
    {log : List (ℕ × Signal)} (A : Accounts c cyc ts n log) : ExactlyOnce c cyc log where
  done_eq := A.counters.split.symm
  done_le := A.done_le
  counted_length := A.counters.done.symm
  counted_nodup := A.counted_nodup
  counted_subset _ hk := A.counted_subset hk
  retry_settled m hm := by
    obtain ⟨hnd, hdisj⟩ := A.serials.settled_nodup
    have hmem : m ∈ cyc.ledger.settled.map Prod.fst ∨ m ∈ cyc.pendingSerials := by
      have : m ∈ (cyc.ledger.registered : Multiset ℕ) := hm
      rwa [← A.serials.balance, Multiset.mem_add, Multiset.mem_coe] at this
    rcases hmem with hset | hpend
    · exact .inr ⟨existsUnique_of_nodup hnd hset, hdisj m hset⟩
    · refine .inl ⟨hpend, fun ⟨how, hhow, _⟩ => hdisj m ?_ hpend⟩
      exact List.mem_map_of_mem (f := Prod.fst) hhow
  retry_settled_once := A.serials.settled_nodup.1
  retry_none hf := by simpa [Cycle.pendingKeys, Dict.keys] using (A.idle hf).2
  finished_once := A.once.trans (Bool.toNat_le _)
  report_balanced rep hrep := by
    obtain ⟨ht, hs⟩ := A.balanced rep (mem_reportsOf.mpr hrep)
    exact ⟨ht, hs.trans ht.symm⟩

/-- **Exactly-once accounting**: in every reachable state, for every cycle, the counters agree and
stay within the total, every key has contributed at most one unit, every retry entry is settled at
most once and in one way, and the cycle is finished at most once, with a report that adds up. -/
theorem submit_exactlyOnce {s : State} (h : (system P).Reachable s) {c : ℕ} {cyc : Cycle}
    (hc : s.shared.cycles[c]? = some cyc) : ExactlyOnce c cyc s.shared.log :=
  ((ledgered h).cycles c cyc hc).exactlyOnce

/-- A run with a failed attempt, its retry and a success, at its end. -/
theorem submit_exactlyOnce_oneJob :
    ∃ s cyc, (system oneJobParams).run oneJob oneJobRetried = some s ∧
    s.shared.cycles[0]? = some cyc ∧ cyc.finished = true ∧ ExactlyOnce 0 cyc s.shared.log := by
  have hrun : (((system oneJobParams).run oneJob oneJobRetried).bind fun s =>
      s.shared.cycles[0]?).map (·.finished) = some true := by decide +kernel
  obtain ⟨cyc, hcyc, hfin⟩ := Option.map_eq_some_iff.mp hrun
  obtain ⟨s, hs, hc⟩ := Option.bind_eq_some_iff.mp hcyc
  exact ⟨s, cyc, hs, hc, hfin, submit_exactlyOnce
    (System.reachable_of_run (.init oneJob_init) hs) hc⟩

end Lsfmgr.Submit
