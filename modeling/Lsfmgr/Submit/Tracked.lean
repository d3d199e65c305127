import Mathlib
import Lsfmgr.Submit.Current
import Lsfmgr.Submit.Phases

/-!
# Submit/Tracked — the records of the submissions, in every reachable state

`Tracked` ties the threads, the retry entries and the counted units of every cycle to their records:
each unit is in its phase, and a job id that `run_submit` returned is either about to be recorded or
recorded.  From it follow the two sides of the contract with LSF: no job that was submitted loses
its job id (`recorded_of_run`), and no finished cycle leaves a record behind in `SUBMITTING` or
`RETRY_WAIT` (`not_stuck_of_finished`).
-/

namespace Lsfmgr.Submit

open Machinery

/-- A record of generation `g` has the job id `J`, and is neither failed nor cancelled. -/
def Recorded (J g : ℕ) (rec : Option JobRecord) : Prop :=
  ∀ r, rec = some r → r.generation = g →
    r.jobId = some J ∧ r.state ≠ .submitFailed ∧ r.state ≠ .cancelled

section Moves

variable {n m J g : ℕ} {gen : Option ℕ} {old new : Option JobRecord}

/-- A job id that was recorded survives every instruction: what a task writes to had none. -/
theorem Recorded.moved (h : Recorded J g old) (hm : Moved n m gen old new) (hg : g < n) :
    Recorded J g new := by
  rcases hm with rfl | ⟨r', rfl, ⟨hn, -⟩ | ⟨r, rfl, hid, -, hgen⟩⟩
  · exact h
  · rintro _ ⟨⟩ rfl
    omega
  · rintro _ ⟨⟩ hr'
    have := (h r rfl (hgen ▸ hr')).1
    simp [hid] at this

/-- …and every write of the rest of the library. -/
theorem Recorded.kept (h : Recorded J g old) (hk : Kept n m old new) (hg : g < n) :
    Recorded J g new := by
  intro r hr hgen
  rcases hk r hr with ⟨hn, -, -⟩ | ⟨r₀, hr₀, hheld⟩
  · omega
  · obtain ⟨hid, h₁, h₂⟩ := h r₀ hr₀ (hheld.generation ▸ hgen)
    refine ⟨hheld.jobId.trans hid, ?_⟩
    rcases hheld.state with hs | hs | hs
    · exact hs ▸ ⟨h₁, h₂⟩
    · simp [hs]
    · exact ⟨fun h => by simp [h, JobState.isReported, JobState.isOnLsf] at hs,
        fun h => by simp [h, JobState.isReported, JobState.isOnLsf] at hs⟩

/-- A settled unit of another cycle stays settled: the generations differ. -/
theorem Settled.moved {gen' : Option ℕ} (h : Settled gen' old) (hm : Moved n m gen old new)
    (hlt : ∀ g, gen' = some g → g < n) (hne : ∀ g, gen = some g → gen' ≠ some g) :
    Settled gen' new := by
  rcases hm with rfl | ⟨r', rfl, ⟨hn, -⟩ | ⟨r, rfl, -, hgen, heq⟩⟩
  · exact h
  · rintro _ ⟨⟩ hr'
    have := hlt _ hr'
    omega
  · rintro _ ⟨⟩ hr'
    exact absurd (heq ▸ hr') (hne _ hgen)

theorem Settled.kept (h : Settled gen old) (hk : Kept n m old new)
    (hlt : ∀ g, gen = some g → g < n) : Settled gen new := by
  intro r hr hgen
  rcases hk r hr with ⟨hn, -, -⟩ | ⟨r₀, hr₀, hheld⟩
  · have := hlt _ hgen
    omega
  · have h₀ := h r₀ hr₀ (hheld.generation ▸ hgen)
    rcases hheld.state with hs | hs | hs
    · exact hs ▸ h₀
    · simp [hs]
    · exact ⟨fun h => by simp [h, JobState.isReported, JobState.isOnLsf] at hs,
        fun h => by simp [h, JobState.isReported, JobState.isOnLsf] at hs⟩

/-- The rest of the library keeps an open unit open, as long as it makes no record. -/
theorem Open.kept {p : JobState → Prop} (h : Open p gen old) (hk : Kept n n old new)
    (hlost : p .lost) (hrep : ∀ s : JobState, s.isReported = true → p s) : Open p gen new := by
  obtain ⟨g, hg, hr⟩ := h
  refine ⟨g, hg, fun r hnew => ?_⟩
  rcases hk r hnew with ⟨h₁, h₂, -⟩ | ⟨r₀, hr₀, hheld⟩
  · omega
  · obtain ⟨h₁, h₂, h₃⟩ := hr r₀ hr₀
    refine ⟨hheld.generation.trans h₁, hheld.jobId.trans h₂, ?_⟩
    rcases hheld.state with hs | hs | hs
    · exact hs ▸ h₃
    · exact hs ▸ hlost
    · exact hrep _ hs

theorem Phase.Holds.kept {ph : Phase} (h : ph.Holds gen old) (hk : Kept n n old new)
    (hlt : ∀ g, gen = some g → g < n) : ph.Holds gen new := by
  have hrep {s t : JobState} (ht : t.isReported = false) (hs : s.isReported = true) : s ≠ t :=
    fun heq => by simp [heq, ht] at hs
  cases ph with
  | unreset => exact h
  | fresh => exact Open.kept (p := (· ≠ .retryWait)) h hk (by simp) fun s hs => hrep rfl hs
  | live => exact Open.kept (p := fun _ => True) h hk trivial fun _ _ => trivial
  | waiting => exact Open.kept (p := (· ≠ .submitting)) h hk (by simp) fun s hs => hrep rfl hs
  | settled => exact Settled.kept h hk hlt

end Moves

/-- What ties the records to the submissions. -/
structure Tracked (P : Params) (w : Shared) (ts : List Thread) : Prop where
  jobs_lt : ∀ k r, w.store.job? P.jobsetId k = some r → r.generation < w.nextGen
  gens_lt : ∀ (c : ℕ) (cyc : Cycle), w.cycles[c]? = some cyc →
    ∀ k g, cyc.ledger.gens.get? k = some g →
    g < w.nextGen ∧ k ∈ cyc.keys
  /-- No generation is given twice. -/
  gens_inj : ∀ (c c' : ℕ) (cyc cyc' : Cycle), w.cycles[c]? = some cyc → w.cycles[c']? = some cyc' →
    ∀ k k' g, cyc.ledger.gens.get? k = some g → cyc'.ledger.gens.get? k' = some g →
      c = c' ∧ k = k'
  sound : ∀ t ∈ ts, ∀ cyc : Cycle, w.cycles[t.cycle]? = some cyc →
    SoundCode P.jobsetId cyc.keys cyc.ledger.gens.get? (w.store.job? P.jobsetId) t.code
  pending : ∀ (c : ℕ) (cyc : Cycle), w.cycles[c]? = some cyc → ∀ k ∈ cyc.pendingKeys,
    Phase.waiting.Holds (cyc.ledger.gens.get? k) (w.store.job? P.jobsetId k)
  counted : ∀ (c : ℕ) (cyc : Cycle), w.cycles[c]? = some cyc → ∀ k ∈ cyc.ledger.counted,
    Phase.settled.Holds (cyc.ledger.gens.get? k) (w.store.job? P.jobsetId k)
  returned : ∀ (c : ℕ) (cyc : Cycle), w.cycles[c]? = some cyc → ∀ p ∈ cyc.ledger.returned,
    (∃ t ∈ ts, t.cycle = c ∧ .succeeded p.1 p.2 ∈ t.code) ∨
      ∃ g, cyc.ledger.gens.get? p.1 = some g ∧ Recorded p.2 g (w.store.job? P.jobsetId p.1)

section Exec

variable {P : Params} {o : Oracle} {c : ℕ} {cyc : Cycle} {w : Shared} {x : Instr} {e : Effect}

/-- **Recording a job id**: the record that exists gets it, and keeps its generation. -/
theorem taskSucceeded_records (o : Oracle) (cyc : Cycle) (J : ℕ) (hp : w.store.Placed)
    {k : Key} {r : JobRecord}
    (hr : w.store.job? P.jobsetId k = some r) :
    ∃ r', (taskSucceeded P o cyc w k J).store.job? P.jobsetId k = some r' ∧
      r'.generation = r.generation ∧ r'.jobId = some J ∧ r'.state = .pend := by
  rw [taskSucceeded, InMemoryStore.transition_no_guard]
  have hT := InMemoryStore.transition_cases P.jobsetId k o.now [.jobId (some J),
    .submitTime (some o.now), .failReason none, .failMessage none] hp
      (by simp [Field.Plain, Field.badName?, Field.keyName?])
    (some .pend) fun _ => true
  generalize w.store.transition o.now P.jobsetId k (some .pend) (Guard.of fun _ => true)
    [.jobId (some J), .submitTime (some o.now), .failReason none, .failMessage none] = out at hT
  cases hT with
  | gone hgone => rw [hr] at hgone; cases hgone
  | refused _ hq => cases hq
  | done hold _ hw =>
    obtain rfl := Option.some.inj (hr.symm.trans hold)
    exact ⟨_, (hw.job? _ _).trans (if_pos ⟨rfl, rfl⟩), rfl, rfl, rfl⟩

theorem taskSucceeded_recorded (hp : w.store.Placed) {k : Key} {J : ℕ}
    (hs : (Instr.succeeded k J).Sound P.jobsetId cyc.keys cyc.ledger.gens.get?
      (w.store.job? P.jobsetId)) :
    ∃ g, (taskSucceeded P o cyc w k J).cyc.ledger.gens.get? k = some g ∧
      Recorded J g ((taskSucceeded P o cyc w k J).store.job? P.jobsetId k) := by
  have ho : Open (fun _ => True) _ _ := hs.single rfl
  obtain ⟨g, hg, hr⟩ := ho
  have hcyc : (taskSucceeded P o cyc w k J).cyc = cyc := by
    rw [taskSucceeded]; split <;> rfl
  refine ⟨g, by rw [hcyc, hg], fun r' hr' hgen => ?_⟩
  rcases hj : w.store.job? P.jobsetId k with _ | r
  · have hsame : (taskSucceeded P o cyc w k J).store = w.store := by
      rw [taskSucceeded, InMemoryStore.transition_no_guard]
      have hT := InMemoryStore.transition_cases P.jobsetId k o.now [.jobId (some J),
        .submitTime (some o.now), .failReason none, .failMessage none] hp
          (by simp [Field.Plain, Field.badName?, Field.keyName?])
        (some .pend) fun _ => true
      generalize w.store.transition o.now P.jobsetId k (some .pend) (Guard.of fun _ => true)
        [.jobId (some J), .submitTime (some o.now), .failReason none, .failMessage none]
        = out at hT
      cases hT with
      | gone => rfl
      | refused => rfl
      | done hold => rw [hj] at hold; cases hold
    rw [hsame, hj] at hr'
    cases hr'
  · obtain ⟨r₁, hr₁, -, hid, hst⟩ := taskSucceeded_records o cyc J hp hj
    obtain rfl := Option.some.inj (hr₁.symm.trans hr')
    exact ⟨hid, by simp [hst], by simp [hst]⟩

end Exec

namespace Tracked

variable {P : Params} {w w' : Shared} {ts ts' : List Thread} {ran : Option ℕ}

theorem init (h : w.Initial P) : Tracked P w [] where
  jobs_lt := h.gens
  gens_lt c cyc hc := by simp [h.cycles] at hc
  gens_inj c c' cyc cyc' hc := by simp [h.cycles] at hc
  sound := by simp
  pending c cyc hc := by simp [h.cycles] at hc
  counted c cyc hc := by simp [h.cycles] at hc
  returned c cyc hc := by simp [h.cycles] at hc


/-- What the next instruction of a thread does, in a state whose records are in order. -/
theorem advanced (T : Tracked P w ts) (L : Ledgered w ts) {i : ℕ} {o : Oracle} {t : Thread}
    {x : Instr} {rest : List Instr} {cyc : Cycle} {e : Effect} (hi : ts[i]? = some t)
    (hcode : t.code = x :: rest) (hcyc : w.cycles[t.cycle]? = some cyc)
    (h : exec P o t.cycle cyc w x = some e) : Advanced P cyc w x e := by
  have hmem := List.mem_of_getElem? hi
  have hle : x.units cyc.keys ≤ held cyc.keys t.cycle ts := units_le_held hmem rfl hcode
  exact exec_advanced L.placed (T.sound t hmem cyc hcyc x (hcode ▸ List.mem_cons_self))
    (Multiset.nodup_of_le hle (L.cycles _ cyc hcyc).held_nodup) (T.pending _ cyc hcyc) h

/-- A job id that was recorded stays recorded, whatever the step. -/
theorem recorded_step (T : Tracked P w ts) (L : Ledgered w ts) (h : Stepped P w ts ran w' ts')
    {J g : ℕ} {k : Key} (hg : g < w.nextGen) (hrec : Recorded J g (w.store.job? P.jobsetId k)) :
    g < w'.nextGen ∧ Recorded J g (w'.store.job? P.jobsetId k) := by
  cases h with
  | thread hi hcode hcyc hexec =>
    have adv := T.advanced L hi hcode hcyc hexec
    exact ⟨hg.trans_le adv.nextGen, (adv.jobs k).elim (fun h => h ▸ hrec) fun h =>
      hrec.moved h.2 hg⟩
  | write hm _ hk => exact ⟨hg.trans_le hm, hrec.kept (hk.kept k) hg⟩
  | submit | cancel | abort | flags => exact ⟨hg, hrec⟩

theorem jobs_lt_moved {n m : ℕ} {gen : Option ℕ} {old new : Option JobRecord}
    (h : ∀ r, old = some r → r.generation < n) (hle : n ≤ m) (hm : Moved n m gen old new) :
    ∀ r, new = some r → r.generation < m := by
  rcases hm with rfl | ⟨r', rfl, ⟨rfl, hlt⟩ | ⟨r, rfl, -, -, heq⟩⟩
  · exact fun r hr => (h r hr).trans_le hle
  · rintro _ ⟨⟩
    exact hlt
  · rintro _ ⟨⟩
    exact heq ▸ (h r rfl).trans_le hle

/-- **The records when a thread has run one instruction.** -/
theorem thread (T : Tracked P w ts) (L : Ledgered w ts) (C : Current w ts) {i : ℕ} {o : Oracle}
    {t : Thread} {x : Instr} {rest : List Instr} {cyc : Cycle} {e : Effect} (hi : ts[i]? = some t)
    (hcode : t.code = x :: rest) (hcyc : w.cycles[t.cycle]? = some cyc)
    (h : exec P o t.cycle cyc w x = some e) :
    Tracked P (w.apply t.cycle e)
      (replaceAt ts i (⟨t.cycle, e.code ++ rest⟩ :: e.spawned.map (Thread.mk t.cycle))) := by
  obtain ⟨c, code⟩ := t
  obtain rfl : code = x :: rest := hcode
  have hmem := List.mem_of_getElem? hi
  have hlt : c < w.cycles.length := L.known _ hmem
  have A := L.cycles c cyc hcyc
  have hle : x.units cyc.keys ≤ held cyc.keys c ts := units_le_held hmem rfl rfl
  have hkeys : e.cyc.keys = cyc.keys := congrArg (List.map Prod.fst) (exec_keyed h)
  have adv := T.advanced L hi rfl hcyc h
  have hget : ∀ d, (w.apply c e).cycles[d]? = if c = d then some e.cyc else w.cycles[d]? := by
    intro d
    simp only [Shared.apply, List.getElem?_set, hlt, if_true]
  -- while the instruction holds a unit, its cycle is the only one that is not finished
  have halone : ∀ d cyd, w.cycles[d]? = some cyd → c ≠ d → cyd.finished = false →
      ∀ k, k ∉ x.units cyc.keys := by
    intro d cyd hd hne hfd k hk
    have hf : cyc.finished = false := by
      by_contra hf
      have := (A.idle (by simpa using hf)).1
      rw [this] at hle
      simp [Multiset.le_zero.mp hle] at hk
    have h₁ := (C.current c cyc hcyc hf).1
    have h₂ := (C.current d cyd hd hfd).1
    exact hne (Option.some.inj (h₁.symm.trans h₂))
  have hgens : ∀ k, k ∉ x.units cyc.keys → e.cyc.ledger.gens.get? k = cyc.ledger.gens.get? k :=
    fun k hk => (adv.gens_get k).resolve_right fun h => hk h.1
  have hgens_some : ∀ k g, cyc.ledger.gens.get? k = some g → e.cyc.ledger.gens.get? k = some g :=
    fun k g hg => (adv.gens_get k).elim (fun h => h.trans hg) fun h => by rw [h.2.1] at hg; cases hg
  have hjobs : ∀ k, k ∉ x.units cyc.keys →
      e.store.job? P.jobsetId k = w.store.job? P.jobsetId k :=
    fun k hk => (adv.jobs k).resolve_right fun h => hk h.1
  have hmoved : ∀ k, Moved w.nextGen e.nextGen (cyc.ledger.gens.get? k)
      (w.store.job? P.jobsetId k) (e.store.job? P.jobsetId k) :=
    fun k => (adv.jobs k).elim .inl (·.2)
  -- the threads other than this one, and the rest of its code
  have hothers : ∀ t' ∈ replaceAt ts i [⟨c, rest⟩],
      ∃ t₀ ∈ ts, t₀.cycle = t'.cycle ∧ ∀ y ∈ t'.code, y ∈ t₀.code := by
    intro t' ht'
    rcases mem_replaceAt ht' with ht' | ht'
    · exact ⟨t', ht', rfl, fun _ h => h⟩
    · obtain rfl := List.mem_singleton.mp ht'
      exact ⟨_, hmem, rfl, fun _ h => List.mem_cons_of_mem _ h⟩
  have hdisjoint : ∀ t' ∈ replaceAt ts i [⟨c, rest⟩], t'.cycle = c → ∀ y ∈ t'.code,
      ∀ k ∈ y.units cyc.keys, k ∉ x.units cyc.keys := by
    intro t' ht' hct y hy k hk hkx
    have hheld := held_replaceAt cyc.keys [] [] hi
    have hnd := A.held_nodup
    simp only [List.nil_append, List.map_nil, codeUnits_nil, List.sum_nil, add_zero] at hheld
    rw [← hheld, Multiset.nodup_add] at hnd
    refine Multiset.disjoint_left.mp hnd.2.2 ?_ hkx
    exact Multiset.mem_of_le (codeUnits_le_held ht' hct) (mem_codeUnits hy hk)
  refine ⟨fun k r hr => ?_, fun d cyd hd k g hg => ?_, fun d d' cyd cyd' hd hd' k k' g hg hg' => ?_,
    fun t' ht' cyd hd y hy => ?_, fun d cyd hd k hk => ?_, fun d cyd hd k hk => ?_,
    fun d cyd hd p hp => ?_⟩
  · exact jobs_lt_moved (T.jobs_lt k) adv.nextGen (hmoved k) r hr
  · rw [hget] at hd
    split at hd
    case isTrue =>
      obtain rfl := Option.some.inj hd
      rw [hkeys]
      rcases adv.gens_get k with heq | ⟨hk, -, hnew, hlt⟩
      · obtain ⟨h₁, h₂⟩ := T.gens_lt c cyc hcyc k g (heq ▸ hg)
        exact ⟨h₁.trans_le adv.nextGen, h₂⟩
      · obtain rfl := Option.some.inj (hnew.symm.trans hg)
        exact ⟨hlt, A.held_subset (Multiset.mem_of_le hle hk)⟩
    case isFalse =>
      obtain ⟨h₁, h₂⟩ := T.gens_lt d cyd hd k g hg
      exact ⟨h₁.trans_le adv.nextGen, h₂⟩
  · -- an old generation is below the counter, and only one key can have got the new one
    have hold :
      ∀ (d : ℕ) (cyd : Cycle), w.cycles[d]? = some cyd → ∀ k g, cyd.ledger.gens.get? k = some g →
        g < w.nextGen := fun d cyd hd k g hg => (T.gens_lt d cyd hd k g hg).1
    rw [hget] at hd hd'
    split at hd
    case isTrue hcd =>
      obtain rfl := Option.some.inj hd
      split at hd'
      case isTrue hcd' =>
        obtain rfl := Option.some.inj hd'
        refine ⟨hcd.symm.trans hcd', ?_⟩
        rcases adv.gens_get k with h₁ | ⟨-, -, h₁, -⟩
        · rcases adv.gens_get k' with h₂ | ⟨-, -, h₂, -⟩
          · exact (T.gens_inj c c cyc cyc hcyc hcyc k k' g (h₁ ▸ hg) (h₂ ▸ hg')).2
          · obtain rfl := Option.some.inj (h₂.symm.trans hg')
            exact absurd (hold c cyc hcyc k _ (h₁ ▸ hg)) (lt_irrefl _)
        · obtain rfl := Option.some.inj (h₁.symm.trans hg)
          exact adv.gens_inj (hold c cyc hcyc) hg hg'
      case isFalse hcd' =>
        rcases adv.gens_get k with h₁ | ⟨-, -, h₁, -⟩
        · exact hcd ▸ T.gens_inj c d' cyc cyd' hcyc hd' k k' g (h₁ ▸ hg) hg'
        · obtain rfl := Option.some.inj (h₁.symm.trans hg)
          exact absurd (hold d' cyd' hd' k' _ hg') (lt_irrefl _)
    case isFalse hcd =>
      split at hd'
      case isTrue hcd' =>
        obtain rfl := Option.some.inj hd'
        rcases adv.gens_get k' with h₂ | ⟨-, -, h₂, -⟩
        · exact hcd' ▸ T.gens_inj d c cyd cyc hd hcyc k k' g hg (h₂ ▸ hg')
        · obtain rfl := Option.some.inj (h₂.symm.trans hg')
          exact absurd (hold d cyd hd k _ hg) (lt_irrefl _)
      case isFalse => exact T.gens_inj d d' cyd cyd' hd hd' k k' g hg hg'
  · -- the code this instruction calls for is sound; the other threads are not disturbed
    rw [hget] at hd
    rcases mem_replaceAt_swap ht' [⟨c, rest⟩] with hnew | hoth
    · have hin : y ∈ e.code ∨ (∃ code ∈ e.spawned, y ∈ code) ∨
          y ∈ rest ∧ t' = ⟨c, e.code ++ rest⟩ := by
        rcases List.mem_cons.mp hnew with rfl | hsp
        · exact (List.mem_append.mp hy).imp_right fun hy => .inr ⟨hy, rfl⟩
        · obtain ⟨code, hcode, rfl⟩ := List.mem_map.mp hsp
          exact .inr (.inl ⟨code, hcode, hy⟩)
      have hct : t'.cycle = c := by
        rcases List.mem_cons.mp hnew with rfl | hsp
        · rfl
        · obtain ⟨code, hcode, rfl⟩ := List.mem_map.mp hsp
          rfl
      rw [if_pos hct.symm] at hd
      obtain rfl := Option.some.inj hd
      rw [hkeys]
      rcases hin with hy | ⟨code, hcode, hy⟩ | ⟨hy, -⟩
      · exact adv.code y hy
      · exact adv.spawned code hcode y hy
      · have hrest : (⟨c, rest⟩ : Thread) ∈ replaceAt ts i [⟨c, rest⟩] :=
          mem_replaceAt_right List.mem_cons_self
        refine (T.sound _ hmem cyc hcyc y (List.mem_cons_of_mem _ hy)).congr
          (fun k hk => hgens k ?_) fun k hk => hjobs k ?_ <;>
        exact hdisjoint _ hrest rfl y hy k hk
    · obtain ⟨t₀, ht₀, hct, hsub⟩ := hothers t' hoth
      split at hd
      case isTrue hcd =>
        obtain rfl := Option.some.inj hd
        rw [hkeys]
        refine (T.sound t₀ ht₀ cyc (by rw [hct, ← hcd]; exact hcyc) y (hsub y hy)).congr
          (fun k hk => hgens k ?_) fun k hk => hjobs k ?_ <;>
        exact hdisjoint t' hoth hcd.symm y hy k hk
      case isFalse hcd =>
        refine (T.sound t₀ ht₀ cyd (by rw [hct]; exact hd) y (hsub y hy)).congr
          (fun _ _ => rfl) fun k hk => hjobs k ?_
        -- a unit held for another cycle means that this one has finished
        refine halone _ cyd hd hcd ?_ k
        by_contra hf
        have h₀ := ((L.cycles _ cyd hd).idle (by simpa using hf)).1
        have := Multiset.mem_of_le (codeUnits_le_held ht₀ hct) (mem_codeUnits (hsub y hy) hk)
        simp [h₀] at this
  · rw [hget] at hd
    split at hd
    case isTrue hcd =>
      obtain rfl := Option.some.inj hd
      rcases adv.pending k hk with hk | hk
      · have hnot : k ∉ x.units cyc.keys := fun hx =>
          A.not_pending (Multiset.mem_of_le hle hx) hk
        change Phase.waiting.Holds _ (e.store.job? P.jobsetId k)
        rw [hgens k hnot, hjobs k hnot]
        exact T.pending c cyc hcyc k hk
      · exact hk
    case isFalse hcd =>
      have hnot := halone d cyd hd hcd (by
        by_contra hf
        have := ((L.cycles d cyd hd).idle (by simpa using hf)).2
        simp [this] at hk) k
      change Phase.waiting.Holds _ (e.store.job? P.jobsetId k)
      rw [hjobs k hnot]
      exact T.pending d cyd hd k hk
  · rw [hget] at hd
    split at hd
    case isTrue hcd =>
      obtain rfl := Option.some.inj hd
      rcases adv.counted k hk with hk | hk
      · have hnot : k ∉ x.units cyc.keys := fun hx =>
          A.not_counted (Multiset.mem_of_le hle hx) hk
        change Phase.settled.Holds _ (e.store.job? P.jobsetId k)
        rw [hgens k hnot, hjobs k hnot]
        exact T.counted c cyc hcyc k hk
      · exact hk
    case isFalse hcd =>
      refine Settled.moved (T.counted d cyd hd k hk) (hmoved k)
        (fun g hg => (T.gens_lt d cyd hd k g hg).1) fun g hg hg' => ?_
      exact hcd (T.gens_inj c d cyc cyd hcyc hd k k g hg hg').1
  · -- a returned job id: still to be recorded, or recorded
    have hstay : ∀ t₀ ∈ ts, Instr.succeeded p.1 p.2 ∈ t₀.code → x ≠ .succeeded p.1 p.2 ∨
        t₀ ≠ ⟨c, x :: rest⟩ → ∃ t' ∈ replaceAt ts i
          (⟨c, e.code ++ rest⟩ :: e.spawned.map (Thread.mk c)),
        t'.cycle = t₀.cycle ∧ Instr.succeeded p.1 p.2 ∈ t'.code := by
      intro t₀ ht₀ hs hor
      by_cases heq : t₀ = ⟨c, x :: rest⟩
      · subst heq
        rcases List.mem_cons.mp hs with hx | hs
        · exact absurd hx.symm (hor.resolve_right (fun h => h rfl))
        · exact ⟨_, mem_replaceAt_right List.mem_cons_self, rfl, List.mem_append.mpr (.inr hs)⟩
      · exact ⟨t₀, mem_replaceAt_of_ne hi ht₀ heq, rfl, hs⟩
    rw [hget] at hd
    split at hd
    case isTrue hcd =>
      subst hcd
      obtain rfl := Option.some.inj hd
      rcases adv.returned p hp with hp | hp
      · rcases T.returned c cyc hcyc p hp with ⟨t₀, ht₀, hct, hs⟩ | ⟨g, hg, hrec⟩
        · by_cases hx : x = .succeeded p.1 p.2
          · subst hx
            obtain rfl := Option.some.inj h
            exact .inr (taskSucceeded_recorded L.placed
              (T.sound _ hmem cyc hcyc _ List.mem_cons_self))
          · obtain ⟨t', ht', hct', hs'⟩ := hstay t₀ ht₀ hs (.inl hx)
            exact .inl ⟨t', ht', hct'.trans hct, hs'⟩
        · exact .inr ⟨g, hgens_some _ _ hg, hrec.moved (hmoved _)
            (T.gens_lt c cyc hcyc _ g hg).1⟩
      · exact .inl ⟨_, mem_replaceAt_right List.mem_cons_self, rfl,
          List.mem_append.mpr (.inl hp)⟩
    case isFalse hcd =>
      rcases T.returned d cyd hd p hp with ⟨t₀, ht₀, hct, hs⟩ | ⟨g, hg, hrec⟩
      · have hne : t₀ ≠ ⟨c, x :: rest⟩ := fun heq => hcd (by rw [← hct, heq])
        obtain ⟨t', ht', hct', hs'⟩ := hstay t₀ ht₀ hs (.inr hne)
        exact .inl ⟨t', ht', hct'.trans hct, hs'⟩
      · exact .inr ⟨g, hg, hrec.moved (hmoved _) (T.gens_lt d cyd hd _ g hg).1⟩

/-- The records when a cycle has been created. -/
theorem submit (T : Tracked P w ts) (L : Ledgered w ts) {cyc : Cycle} {preSubmit : Bool}
    (hcyc : ∃ keyed maxRetry slotLimit, cyc = { keyed, maxRetry, slotLimit }) :
    Tracked P { w with cycles := w.cycles ++ [cyc], contexts := some w.cycles.length }
      (ts ++ [⟨w.cycles.length, [.register preSubmit]⟩]) := by
  have hget : ∀ (d : ℕ) (cyd : Cycle), (w.cycles ++ [cyc])[d]? = some cyd →
      w.cycles[d]? = some cyd ∨ d = w.cycles.length ∧ cyd = cyc := by
    intro d cyd hd
    rcases Nat.lt_or_ge d w.cycles.length with hlt | hge
    · exact .inl (by rwa [List.getElem?_append_left hlt] at hd)
    · rw [List.getElem?_append_right hge, List.getElem?_singleton] at hd
      split at hd
      case isTrue heq => exact .inr ⟨by omega, (Option.some.inj hd).symm⟩
      case isFalse => cases hd
  obtain ⟨keyed, maxRetry, slotLimit, rfl⟩ := hcyc
  refine ⟨T.jobs_lt, fun d cyd hd k g hg => ?_, fun d d' cyd cyd' hd hd' k k' g hg hg' => ?_,
    fun t' ht' cyd hd => ?_, fun d cyd hd k hk => ?_, fun d cyd hd k hk => ?_,
    fun d cyd hd p hp => ?_⟩
  · rcases hget d cyd hd with hd | ⟨-, rfl⟩
    · exact T.gens_lt d cyd hd k g hg
    · simp at hg
  · rcases hget d cyd hd with hd | ⟨-, rfl⟩
    · rcases hget d' cyd' hd' with hd' | ⟨-, rfl⟩
      · exact T.gens_inj d d' cyd cyd' hd hd' k k' g hg hg'
      · simp at hg'
    · simp at hg
  · rcases List.mem_append.mp ht' with ht' | ht'
    · refine T.sound t' ht' cyd ?_
      rwa [List.getElem?_append_left (L.known t' ht')] at hd
    · obtain rfl := List.mem_singleton.mp ht'
      rcases hget _ cyd hd with hd | ⟨-, rfl⟩
      · exact absurd (List.getElem?_eq_some_iff.mp hd).1 (lt_irrefl _)
      · refine soundCode_cons.mpr ⟨⟨fun p hp => ?_, by simp [Instr.records]⟩, soundCode_nil⟩
        obtain ⟨k, -, rfl⟩ := List.mem_map.mp hp
        rfl
  · rcases hget d cyd hd with hd | ⟨-, rfl⟩
    · exact T.pending d cyd hd k hk
    · simp [Cycle.mem_pendingKeys] at hk
  · rcases hget d cyd hd with hd | ⟨-, rfl⟩
    · exact T.counted d cyd hd k hk
    · simp at hk
  · rcases hget d cyd hd with hd | ⟨-, rfl⟩
    · refine (T.returned d cyd hd p hp).imp_left ?_
      rintro ⟨t, ht, h⟩
      exact ⟨t, List.mem_append_left _ ht, h⟩
    · simp at hp

/-- The records when only flags, retries and the threads that settle them have changed. -/
theorem setCycle (T : Tracked P w ts) {c : ℕ} {cyc cyc' : Cycle} {more : List Thread}
    (hc : w.cycles[c]? = some cyc) (hk : cyc'.keyed = cyc.keyed)
    (hg : cyc'.ledger.gens = cyc.ledger.gens) (hcnt : cyc'.ledger.counted = cyc.ledger.counted)
    (hr : cyc'.ledger.returned = cyc.ledger.returned)
    (hp : ∀ k ∈ cyc'.pendingKeys, k ∈ cyc.pendingKeys)
    (hmore : ∀ t ∈ more, t.cycle = c ∧ SoundCode P.jobsetId cyc.keys cyc.ledger.gens.get?
      (w.store.job? P.jobsetId) t.code) :
    Tracked P (w.setCycle c cyc') (ts ++ more) := by
  have hkeys : cyc'.keys = cyc.keys := congrArg (List.map Prod.fst) hk
  have hget : ∀ (d : ℕ) (cyd : Cycle), (w.setCycle c cyc').cycles[d]? = some cyd →
      w.cycles[d]? = some cyd ∨ d = c ∧ cyd = cyc' := by
    intro d cyd hd
    rw [Shared.cycles_setCycle hc] at hd
    split at hd
    case isTrue heq => exact .inr ⟨heq, (Option.some.inj hd).symm⟩
    case isFalse => exact .inl hd
  -- what was known of the cycle it replaces
  have hread : ∀ (d : ℕ) (cyd : Cycle), (w.setCycle c cyc').cycles[d]? = some cyd →
      ∃ cyd₀, w.cycles[d]? = some cyd₀ ∧ cyd.keys = cyd₀.keys ∧
        cyd.ledger.gens = cyd₀.ledger.gens ∧ cyd.ledger.counted = cyd₀.ledger.counted ∧
        cyd.ledger.returned = cyd₀.ledger.returned ∧
        ∀ k ∈ cyd.pendingKeys, k ∈ cyd₀.pendingKeys := by
    intro d cyd hd
    rcases hget d cyd hd with hd | ⟨rfl, rfl⟩
    · exact ⟨cyd, hd, rfl, rfl, rfl, rfl, fun _ h => h⟩
    · exact ⟨cyc, hc, hkeys, hg, hcnt, hr, hp⟩
  refine ⟨T.jobs_lt, fun d cyd hd k g hg' => ?_, fun d d' cyd cyd' hd hd' k k' g hg₁ hg₂ => ?_,
    fun t' ht' cyd hd => ?_, fun d cyd hd k hk' => ?_, fun d cyd hd k hk' => ?_,
    fun d cyd hd p hp' => ?_⟩
  · obtain ⟨cyd₀, hd₀, h₁, h₂, -⟩ := hread d cyd hd
    rw [h₁]
    exact T.gens_lt d cyd₀ hd₀ k g (h₂ ▸ hg')
  · obtain ⟨cyd₀, hd₀, -, h₂, -⟩ := hread d cyd hd
    obtain ⟨cyd₀', hd₀', -, h₂', -⟩ := hread d' cyd' hd'
    exact T.gens_inj d d' cyd₀ cyd₀' hd₀ hd₀' k k' g (h₂ ▸ hg₁) (h₂' ▸ hg₂)
  · obtain ⟨cyd₀, hd₀, h₁, h₂, -⟩ := hread _ cyd hd
    rw [h₁, h₂]
    rcases List.mem_append.mp ht' with ht' | ht'
    · exact T.sound t' ht' cyd₀ hd₀
    · obtain ⟨hct, hsound⟩ := hmore t' ht'
      obtain rfl := Option.some.inj ((hct ▸ hc : w.cycles[t'.cycle]? = some cyc).symm.trans hd₀)
      exact hsound
  · obtain ⟨cyd₀, hd₀, -, h₂, -, -, h₅⟩ := hread d cyd hd
    rw [h₂]
    exact T.pending d cyd₀ hd₀ k (h₅ k hk')
  · obtain ⟨cyd₀, hd₀, -, h₂, h₃, -⟩ := hread d cyd hd
    rw [h₂]
    exact T.counted d cyd₀ hd₀ k (h₃ ▸ hk')
  · obtain ⟨cyd₀, hd₀, -, h₂, -, h₄, -⟩ := hread d cyd hd
    rw [h₂]
    exact (T.returned d cyd₀ hd₀ p (h₄ ▸ hp')).imp_left fun ⟨t, ht, h⟩ =>
      ⟨t, List.mem_append_left _ ht, h⟩

/-- The records when the rest of the library has written. -/
theorem write (T : Tracked P w ts) (L : Ledgered w ts) (C : Current w ts) {store : InMemoryStore}
    {m : ℕ} (hm : w.nextGen ≤ m) (hact : w.isActive = true → m = w.nextGen)
    (hk : KeptStore P.jobsetId w.nextGen m w.store store) :
    Tracked P { w with store, nextGen := m } ts := by
  have hlt : ∀ (d : ℕ) (cyd : Cycle), w.cycles[d]? = some cyd → ∀ k g,
      cyd.ledger.gens.get? k = some g → g < w.nextGen :=
    fun d cyd hd k g hg => (T.gens_lt d cyd hd k g hg).1
  -- an unfinished cycle makes the jobset active, so no record is made
  have hkept : ∀ (d : ℕ) (cyd : Cycle), w.cycles[d]? = some cyd → cyd.finished = false → ∀ k,
      Kept w.nextGen w.nextGen (w.store.job? P.jobsetId k) (store.job? P.jobsetId k) := by
    intro d cyd hd hf k
    have := hk.kept k
    rwa [hact (C.isActive hd hf)] at this
  refine ⟨fun k r hr => ?_, fun d cyd hd k g hg => ?_, T.gens_inj, fun t ht cyd hd y hy => ?_,
    fun d cyd hd k hk' => ?_, fun d cyd hd k hk' => ?_, fun d cyd hd p hp => ?_⟩
  · rcases hk.kept k r hr with ⟨-, h, -⟩ | ⟨r₀, hr₀, hheld⟩
    · exact h
    · exact hheld.generation ▸ (T.jobs_lt k r₀ hr₀).trans_le hm
  · obtain ⟨h₁, h₂⟩ := T.gens_lt d cyd hd k g hg
    exact ⟨h₁.trans_le hm, h₂⟩
  · have hs := T.sound t ht cyd hd y hy
    refine ⟨fun p hp => ?_, hs.records⟩
    have hf : cyd.finished = false := by
      by_contra hf
      have h₀ := ((L.cycles _ cyd hd).idle (by simpa using hf)).1
      have := Multiset.mem_of_le (codeUnits_le_held ht rfl)
        (mem_codeUnits hy (Instr.units_of_tokens hp))
      simp [h₀] at this
    exact (hs.phases p hp).kept (hkept _ cyd hd hf p.1) (hlt _ cyd hd p.1)
  · have hf : cyd.finished = false := by
      by_contra hf
      have := ((L.cycles d cyd hd).idle (by simpa using hf)).2
      simp [this] at hk'
    exact (T.pending d cyd hd k hk').kept (hkept d cyd hd hf k) (hlt d cyd hd k)
  · exact Settled.kept (T.counted d cyd hd k hk') (hk.kept k) (hlt d cyd hd k)
  · exact (T.returned d cyd hd p hp).imp_right fun ⟨g, hg, hrec⟩ =>
      ⟨g, hg, hrec.kept (hk.kept _) (hlt d cyd hd _ g hg)⟩

/-- **Every kind of step keeps the records of the submissions in order.** -/
theorem step (T : Tracked P w ts) (L : Ledgered w ts) (C : Current w ts)
    (h : Stepped P w ts ran w' ts') : Tracked P w' ts' := by
  cases h with
  | thread hi hcode hcyc hexec => exact T.thread L C hi hcode hcyc hexec
  | submit _ _ hcyc => exact T.submit L hcyc
  | @cancel c cyc scope hc =>
    rw [← List.append_nil ts]
    cases scope with
    | none => exact T.setCycle hc rfl rfl rfl rfl (fun _ h => h) (by simp)
    | some ks => exact T.setCycle hc rfl rfl rfl rfl (fun _ h => h) (by simp)
  | @abort c cyc scope how reason hc =>
    obtain ⟨hkeys, -, pend, settled, heq⟩ := Cycle.popRetries_spec how (cyc.abortedKeys scope) cyc
    refine T.setCycle hc (by rw [heq]) (by rw [heq]) (by rw [heq]) (by rw [heq])
      (fun k hk => hkeys ▸ Multiset.mem_add.mpr (.inr hk)) fun t ht => ?_
    obtain rfl := List.mem_singleton.mp ht
    refine ⟨rfl, fun y hy => ?_⟩
    obtain ⟨k, hk, rfl⟩ := List.mem_map.mp hy
    refine Instr.sound_single k .waiting rfl rfl (T.pending c cyc hc k ?_)
    rw [hkeys]
    exact Multiset.mem_add.mpr (.inl hk)
  | write hm hact hk => exact T.write L C hm hact hk
  | flags => exact ⟨T.jobs_lt, T.gens_lt, T.gens_inj, T.sound, T.pending, T.counted, T.returned⟩

end Tracked

variable {P : Params}

theorem tracked {C : State → Act → Prop} {s : State} (h : (system P).ReachableUnder C s) :
    Tracked P s.shared s.threads := by
  have := invariant_of_stepped (P := P) (I := fun w ts => Current w ts ∧ Tracked P w ts)
    (fun w hw => ⟨⟨by simp, fun c cyc hc => by simp [hw.cycles] at hc⟩, .init hw⟩)
    (fun _ _ _ _ _ L CT hs => ⟨CT.1.step L hs, CT.2.step L CT.1 hs⟩) h
  exact this.2

/-- A job id that was recorded stays recorded in every run from there. -/
theorem recorded_of_run {J g : ℕ} {k : Key} :
    ∀ {as : List Act} {s s' : State}, (system P).Reachable s → (system P).run s as = some s' →
      g < s.shared.nextGen → Recorded J g (s.shared.store.job? P.jobsetId k) →
      Recorded J g (s'.shared.store.job? P.jobsetId k)
  | [], _, _, _, hrun, _, hrec => Option.some.inj hrun ▸ hrec
  | a :: as, s, s', h, hrun, hg, hrec => by
      rw [System.run, Option.bind_eq_some_iff] at hrun
      obtain ⟨s₁, hs, hrun⟩ := hrun
      obtain ⟨hg', hrec'⟩ := (tracked h).recorded_step (ledgered h)
        (step_cases (ledgered h).placed hs) hg hrec
      exact recorded_of_run (.step h trivial hs) hrun hg' hrec'

/-- The contract of a submission with LSF, in the state `s`. -/
structure NeitherOrphanedNorStuck (P : Params) (s : State) : Prop where
  /-- When the success is recorded, the record gets the job id, and keeps it: no later write takes
  it away, fails the record or cancels it, as long as the record has this generation. -/
  recorded : ∀ i o t rest k J r s', s.threads[i]? = some t → t.code = .succeeded k J :: rest →
    s.shared.store.job? P.jobsetId k = some r → (system P).step s (.thread i o) = some s' →
    (∃ r', s'.shared.store.job? P.jobsetId k = some r' ∧ r'.generation = r.generation ∧
      r'.jobId = some J) ∧
    ∀ as s'', (system P).run s' as = some s'' →
      Recorded J r.generation (s''.shared.store.job? P.jobsetId k)
  /-- A job id that `run_submit` returned is still to be recorded, or is. -/
  returned : ∀ c (cyc : Cycle), s.shared.cycles[c]? = some cyc → ∀ p ∈ cyc.ledger.returned,
    (∃ t ∈ s.threads, t.cycle = c ∧ .succeeded p.1 p.2 ∈ t.code) ∨
      ∃ g, cyc.ledger.gens.get? p.1 = some g ∧
        Recorded p.2 g (s.shared.store.job? P.jobsetId p.1)
  /-- Once the cycle's end is emitted, no record that it reset is left in a state of the
  submission. -/
  not_stuck : ∀ c (cyc : Cycle) rep, s.shared.cycles[c]? = some cyc →
    (c, Signal.finished rep) ∈ s.shared.log → ∀ k r,
    s.shared.store.job? P.jobsetId k = some r → cyc.ledger.gens.get? k = some r.generation →
    r.state ≠ .submitting ∧ r.state ≠ .retryWait

/-- **No finished cycle leaves a record behind**: a record that still has the generation the cycle
gave it is neither being submitted nor waiting for a retry. -/
theorem not_stuck_of_finished {s : State} (h : (system P).Reachable s) {c : ℕ} {cyc : Cycle}
    (hc : s.shared.cycles[c]? = some cyc) (hf : cyc.finished = true) {k : Key} {r : JobRecord}
    (hr : s.shared.store.job? P.jobsetId k = some r)
    (hg : cyc.ledger.gens.get? k = some r.generation) :
    r.state ≠ .submitting ∧ r.state ≠ .retryWait := by
  have A := (ledgered h).cycles c cyc hc
  obtain ⟨h₁, h₂⟩ := A.idle hf
  have hk := ((tracked h).gens_lt c cyc hc k _ hg).2
  refine (tracked h).counted c cyc hc k ?_ r hr hg
  have hunits := A.units
  rw [h₁, h₂, add_zero, add_zero] at hunits
  exact Multiset.mem_coe.mp (hunits ▸ Multiset.mem_coe.mpr hk)

theorem Accounts.finished_of_report {c : ℕ} {cyc : Cycle} {ts : List Thread} {n : ℕ}
    {log : List (ℕ × Signal)} (A : Accounts c cyc ts n log) {rep : SubmitReport}
    (h : (c, Signal.finished rep) ∈ log) : cyc.finished = true := by
  by_contra hf
  have hlen := List.length_pos_of_mem (mem_reportsOf.mpr h)
  have := A.once
  rw [Bool.not_eq_true] at hf
  simp only [hf, Bool.toNat_false] at this
  omega

/-- **No orphaned and no stuck submission**, in every reachable state. -/
theorem neitherOrphanedNorStuck {s : State} (h : (system P).Reachable s) :
    NeitherOrphanedNorStuck P s where
  recorded i o t rest k J r s' hi hcode hr hstep := by
    have L := ledgered h
    have T := tracked h
    have hrec : (∃ r', s'.shared.store.job? P.jobsetId k = some r' ∧
        r'.generation = r.generation ∧ r'.jobId = some J) ∧
        Recorded J r.generation (s'.shared.store.job? P.jobsetId k) := by
      obtain ⟨c, code⟩ := t
      obtain rfl : code = .succeeded k J :: rest := hcode
      simp only [system, State.step, State.stepThread, hi] at hstep
      split at hstep
      case h_1 x rest' cyc hcode hcyc =>
        obtain ⟨rfl, rfl⟩ := List.cons.inj hcode
        obtain rfl := Option.some.inj hstep
        obtain ⟨r', hr', hg, hid, hst⟩ := taskSucceeded_records o cyc J L.placed hr
        refine ⟨⟨r', hr', hg, hid⟩, fun r₁ hr₁ _ => ?_⟩
        obtain rfl := Option.some.inj (hr'.symm.trans hr₁)
        exact ⟨hid, by simp [hst], by simp [hst]⟩
      case h_2 => cases hstep
    refine ⟨hrec.1, fun as s'' hrun => ?_⟩
    obtain ⟨r', hr', hg, -⟩ := hrec.1
    have hs' : (system P).Reachable s' := .step h trivial hstep
    exact recorded_of_run hs' hrun (hg ▸ (tracked hs').jobs_lt k r' hr') hrec.2
  returned c cyc hc p hp := (tracked h).returned c cyc hc p hp
  not_stuck c cyc rep hc hrep k r hr hg :=
    not_stuck_of_finished h hc (((ledgered h).cycles c cyc hc).finished_of_report hrep) hr hg

/-- At the end of a run with a failed attempt, its retry and a success. -/
theorem neitherOrphanedNorStuck_oneJob : ∃ s,
    (system oneJobParams).run oneJob oneJobRetried = some s ∧
      ((s.shared.store.job? "js" "a").bind (·.jobId)) = some 7 ∧
      NeitherOrphanedNorStuck oneJobParams s := by
  have hrun : ((system oneJobParams).run oneJob oneJobRetried).bind (fun s =>
      (s.shared.store.job? "js" "a").bind (·.jobId)) = some 7 := by decide +kernel
  obtain ⟨s, hs, hid⟩ := Option.bind_eq_some_iff.mp hrun
  exact ⟨s, hs, hid, neitherOrphanedNorStuck (System.reachable_of_run (.init oneJob_init) hs)⟩

end Lsfmgr.Submit
