import Mathlib
import Lsfmgr.Store.Revisions
import Lsfmgr.Submit.Tracked

/-!
# Submit/Ownership — a cycle writes only to the executions it reset

The writes of a task, of a retry that is given up and of a failed launch carry no generation.  What
keeps them off the records of a later operation is that all of them hold a unit of an unfinished
cycle: while there is one the jobset is active, and nothing is added, replaced or reset by another
cycle.
-/

namespace Lsfmgr.Submit

open Machinery

variable {P : Params} {s : State}

/-- **The writes of the cycles**, in the state `s`: after its reset a cycle changes a record only
where the record has the generation its own reset gave, and leaves that generation as it is. -/
def OwnExecutions (P : Params) (s : State) : Prop :=
  ∀ i o s' t x rest cyc, (system P).step s (.thread i o) = some s' → s.threads[i]? = some t →
    t.code = x :: rest → x.isReset = false → s.shared.cycles[t.cycle]? = some cyc →
    ∀ js k, s'.shared.store.job? js k = s.shared.store.job? js k ∨
      js = P.jobsetId ∧ ∃ r r', s.shared.store.job? js k = some r ∧
        s'.shared.store.job? js k = some r' ∧ cyc.ledger.gens.get? k = some r.generation ∧
        r'.generation = r.generation

/-- One write changes one jobset. -/
theorem Stored.otherJobset {s s' : InMemoryStore} (h : Stored P s s') (hp : s.Placed) {js : String}
    (hjs : js ≠ P.jobsetId) (k : String) : s'.job? js k = s.job? js k := by
  cases h with
  | same => rfl
  | wrote hf ht =>
    obtain ⟨-, rfl⟩ | ⟨old, new, -, -, -, -, hw⟩ := InMemoryStore.transition_ok hp ht
    · rfl
    · rw [hw.job?, if_neg fun hc => hjs hc.1]

/-- **A submit cycle writes only to the executions it reset.** -/
theorem ownExecutions (h : (system P).Reachable s) : OwnExecutions P s := by
  intro i o s' t x rest cyc hstep hi hcode hx hcyc js k
  have L := ledgered h
  obtain ⟨e, hexec, rfl⟩ : ∃ e, exec P o t.cycle cyc s.shared x = some e ∧ s' =
      { s with
        shared := s.shared.apply t.cycle e
        threads := replaceAt s.threads i
          (({ t with code := e.code ++ rest } : Thread) :: e.spawned.map (Thread.mk t.cycle))
              } := by
    simp only [system, State.step, State.stepThread, hi, hcode, hcyc] at hstep
    obtain ⟨e, he, heq⟩ := Option.map_eq_some_iff.mp hstep
    exact ⟨e, he, heq.symm⟩
  obtain ⟨hstored, hgen⟩ := exec_stored L.placed hexec
  by_cases hjs : js = P.jobsetId
  · subst hjs
    obtain hsame | ⟨-, hsame | ⟨r', hr', hnew | ⟨r, hr, -, hg, hgens⟩⟩⟩ :=
      ((tracked h).advanced L hi hcode hcyc hexec).jobs k
    · exact .inl hsame
    · exact .inl hsame
    · exact absurd hnew.2 (by rw [hgen hx]; exact lt_irrefl _)
    · exact .inr ⟨rfl, r, r', hr, hr', hg, hgens⟩
  · exact .inl (hstored.otherJobset L.placed hjs k)

/-- A retry is waiting, in the execution that the reset of its cycle began. -/
theorem ownExecutions_oneJob :
    ∃ s, (system oneJobParams).run oneJob oneJobRetrying = some s ∧
      (s.shared.store.job? "js" "a").map (·.generation) = some 1 ∧
      OwnExecutions oneJobParams s := by
  have hrun : ((system oneJobParams).run oneJob oneJobRetrying).bind (fun s =>
      (s.shared.store.job? "js" "a").map (·.generation)) = some 1 := by decide +kernel
  obtain ⟨s, hs, hgen⟩ := Option.bind_eq_some_iff.mp hrun
  exact ⟨s, hs, hgen, ownExecutions (System.reachable_of_run (.init oneJob_init) hs)⟩

end Lsfmgr.Submit
