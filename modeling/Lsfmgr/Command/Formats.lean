import Mathlib
import Lsfmgr.Command.Query

/-!
# Command/Formats — the shared format only falls, one step at a time

A thread moves the index on from the format it has used itself, and only if the index is still
there; so two threads that got the same error move it once.  An attempt after that reads an index
above the one before (`Stage.Ok`), which bounds the attempts of a call by the number of formats.
-/

namespace Lsfmgr.Command

open Machinery

variable {site : Site} {chunk : List Text} {g : Shared}

/-- Some query with the format got an error that looks like an unknown field. -/
def FieldErrorAt (site : Site) (errors : List (ℕ × Failure)) (fmtIdx : ℕ) : Prop :=
  ∃ e, (fmtIdx, Failure.command e) ∈ errors ∧ site.looksLikeFieldError e.stderr = true

/-- The error is answered with another format. -/
def Retried (site : Site) (fmtIdx : ℕ) (f : Failure) : Prop :=
  fmtIdx + 1 < site.formats ∧ ∃ e, f = .command e ∧ site.looksLikeFieldError e.stderr = true

theorem formats_pos (site : Site) : 0 < site.formats :=
  List.length_pos_iff.mpr (bjobsFormats_ne_nil site.cfg)

theorem FieldErrorAt.append {errors errors' : List (ℕ × Failure)} {i : ℕ}
    (h : FieldErrorAt site errors i) : FieldErrorAt site (errors ++ errors') i := by
  obtain ⟨e, he, hlooks⟩ := h
  exact ⟨e, List.mem_append_left _ he, hlooks⟩

namespace Stage

/-- The commands run so far. -/
def runs : Stage → ℕ
  | .select runs | .selected _ runs | .running _ runs | .degrade _ runs | .ended _ runs => runs

/-- A bound on the steps that are left before the call ends. -/
def left (formats fmtIdx : ℕ) : Stage → ℕ
  | .select _ => 4 * (formats - 1 - fmtIdx) + 3
  | .selected usedIdx _ => 4 * (formats - 1 - usedIdx) + 2
  | .running usedIdx _ => 4 * (formats - 1 - usedIdx) + 1
  | .degrade usedIdx _ => 4 * (formats - 1 - usedIdx)
  | .ended _ _ => 0

/-! ## One attempt -/

/-- After an error another format is tried, or the error is the result. -/
theorem afterError_cases (site : Site) (chunk : List Text) (last : Attempt) (runs : ℕ) :
    (afterError site chunk last runs = .degrade last.fmtIdx runs ∧
        ∃ f, last.result site chunk = .error f ∧ Retried site last.fmtIdx f) ∨
      (afterError site chunk last runs = .ended last runs ∧
        ∀ f, last.result site chunk = .error f → ¬ Retried site last.fmtIdx f) := by
  rw [afterError]
  cases hres : last.result site chunk with
  | ok rows => exact .inr ⟨rfl, by simp⟩
  | error f =>
    cases f with
    | other => exact .inr ⟨rfl, by simp [Retried]⟩
    | command e =>
      dsimp only
      split_ifs with hretry
      · exact .inl ⟨rfl, _, rfl, by have := hretry.1; omega, e, rfl, hretry.2⟩
      · refine .inr ⟨rfl, fun f hf hr => hretry ?_⟩
        obtain rfl := Except.error.inj hf
        obtain ⟨hlt, e', he', hlooks⟩ := hr
        obtain rfl := Failure.command.inj he'
        exact ⟨by omega, hlooks⟩

/-- Everything a step of `_bjobs` can do. -/
theorem step_cases {st : Stage} {m : Move} {out : ℕ × Stage}
    (h : st.step site chunk g m = some out) :
    (∃ r, st = .select r ∧ m = .select ∧ out = (g.fmtIdx, .selected g.fmtIdx r)) ∨
    (∃ u r, st = .selected u r ∧ m = .run ∧ g.down = false ∧
      out = (g.fmtIdx, .running u (r + 1))) ∨
    (∃ u r, st = .selected u r ∧ m = .run ∧ g.down = true ∧
      out = (g.fmtIdx, afterError site chunk ⟨u, true, none⟩ r)) ∨
    (∃ u r a, st = .running u r ∧ m = .answer a ∧
      out = (g.fmtIdx, afterError site chunk ⟨u, g.down, some a⟩ r)) ∨
    (∃ u r, st = .degrade u r ∧ m = .degrade ∧
      out = (if g.fmtIdx = u then u + 1 else g.fmtIdx, .select r)) := by
  cases st <;> cases m <;> simp only [step, Option.some.injEq, reduceCtorEq] at h
  case select.select r => exact .inl ⟨r, rfl, rfl, h.symm⟩
  case selected.run u r =>
    cases hd : g.down with
    | false => exact .inr (.inl ⟨u, r, rfl, rfl, rfl, by simp [← h, hd]⟩)
    | true => exact .inr (.inr (.inl ⟨u, r, rfl, rfl, rfl, by simp [← h, hd]⟩))
  case running.answer u r a => exact .inr (.inr (.inr (.inl ⟨u, r, a, rfl, rfl, h.symm⟩)))
  case degrade.degrade u r => exact .inr (.inr (.inr (.inr ⟨u, r, rfl, rfl, h.symm⟩)))

/-- The formats a call has read are not above the index, and it has run at most one command for each
of them. -/
def Ok (site : Site) (errors : List (ℕ × Failure)) (fmtIdx : ℕ) : Stage → Prop
  | .select runs => runs ≤ fmtIdx
  | .selected usedIdx runs => runs ≤ usedIdx ∧ usedIdx ≤ fmtIdx
  | .running usedIdx runs => runs ≤ usedIdx + 1 ∧ usedIdx ≤ fmtIdx
  | .degrade usedIdx runs => runs ≤ usedIdx + 1 ∧ usedIdx ≤ fmtIdx ∧ usedIdx + 1 < site.formats ∧
      FieldErrorAt site errors usedIdx
  | .ended last runs => runs ≤ last.fmtIdx + 1 ∧ last.fmtIdx ≤ fmtIdx

variable {errors errors' : List (ℕ × Failure)} {fmtIdx fmtIdx' : ℕ} {st : Stage} {m : Move}

/-- What other threads do does not disturb it. -/
theorem Ok.mono (h : st.Ok site errors fmtIdx) (hle : fmtIdx ≤ fmtIdx') :
    st.Ok site (errors ++ errors') fmtIdx' := by
  cases st with
  | select => exact le_trans h hle
  | selected | running | ended => exact ⟨h.1, h.2.trans hle⟩
  | degrade => exact ⟨h.1, h.2.1.trans hle, h.2.2.1, h.2.2.2.append⟩

theorem Ok.runs_le (h : st.Ok site errors fmtIdx) (hlt : fmtIdx < site.formats) :
    st.runs ≤ site.formats := by
  cases st <;> simp only [Ok] at h <;> simp only [runs] <;> omega

theorem ok_afterError (last : Attempt) {runs : ℕ} (hr : runs ≤ last.fmtIdx + 1)
    (hu : last.fmtIdx ≤ fmtIdx)
    (hlog : ∀ f, last.result site chunk = .error f → (last.fmtIdx, f) ∈ errors) :
    (afterError site chunk last runs).Ok site errors fmtIdx := by
  rcases afterError_cases site chunk last runs with
    ⟨h, f, hres, hlt, e, rfl, hlooks⟩ | ⟨h, -⟩
  · rw [h]
    exact ⟨hr, hu, hlt, e, hlog _ hres, hlooks⟩
  · rw [h]
    exact ⟨hr, hu⟩

/-- **A step of a call leaves the index alone, or moves it on by one from a format with a field
error.** -/
theorem step_index {out : ℕ × Stage} (hok : st.Ok site errors g.fmtIdx)
    (h : st.step site chunk g m = some out) :
    out.1 = g.fmtIdx ∨ (out.1 = g.fmtIdx + 1 ∧ g.fmtIdx + 1 < site.formats ∧
      FieldErrorAt site errors g.fmtIdx) := by
  rcases step_cases h with ⟨r, rfl, rfl, rfl⟩ | ⟨u, r, rfl, rfl, -, rfl⟩ |
    ⟨u, r, rfl, rfl, -, rfl⟩ |
    ⟨u, r, a, rfl, rfl, rfl⟩ | ⟨u, r, rfl, rfl, rfl⟩
  · exact .inl rfl
  · exact .inl rfl
  · exact .inl rfl
  · exact .inl rfl
  · obtain ⟨-, -, hlt, herr⟩ := hok
    by_cases hu : g.fmtIdx = u
    · subst hu
      exact .inr ⟨by simp, hlt, herr⟩
    · exact .inl (by simp [hu])

/-- The step keeps what is known of the call. -/
theorem Ok.step {out : ℕ × Stage} (hok : st.Ok site errors g.fmtIdx)
    (h : st.step site chunk g m = some out) :
    out.2.Ok site (errors ++ st.failing site chunk g m) out.1 := by
  rcases step_cases h with ⟨r, rfl, rfl, rfl⟩ | ⟨u, r, rfl, rfl, -, rfl⟩ |
    ⟨u, r, rfl, rfl, hdown, rfl⟩ | ⟨u, r, a, rfl, rfl, rfl⟩ | ⟨u, r, rfl, rfl, rfl⟩
  · exact ⟨hok, le_rfl⟩
  · exact ⟨Nat.succ_le_succ hok.1, hok.2⟩
  · show (afterError site chunk ⟨u, true, none⟩ r).Ok site _ g.fmtIdx
    refine ok_afterError _ (Nat.le_succ_of_le hok.1) hok.2 fun f hf => ?_
    obtain rfl : Failure.command closedError = f := Except.error.inj hf
    simp [failing, hdown]
  · show (afterError site chunk ⟨u, g.down, some a⟩ r).Ok site _ g.fmtIdx
    refine ok_afterError _ hok.1 hok.2 fun f hf => ?_
    simp [failing, hf]
  · obtain ⟨hr, hle, -, -⟩ := hok
    show r ≤ if g.fmtIdx = u then u + 1 else g.fmtIdx
    split_ifs with hu
    · exact hr
    · omega

/-- **An error that is not answered with another format ends the call, and the index is as it
was.** -/
theorem step_raises {out : ℕ × Stage} {u : ℕ} {f : Failure}
    (h : st.step site chunk g m = some out) (hf : (u, f) ∈ st.failing site chunk g m)
    (hr : ¬ Retried site u f) :
    out.1 = g.fmtIdx ∧ ∃ last runs, out.2 = .ended last runs ∧
        last.result site chunk = .error f := by
  have raised (last : Attempt) (runs : ℕ) (hlast : last.fmtIdx = u)
      (hres : last.result site chunk = .error f) :
      ∃ last' runs', afterError site chunk last runs = .ended last' runs' ∧
        last'.result site chunk = .error f := by
    subst hlast
    rcases afterError_cases site chunk last runs with
      ⟨-, f', hres', hr'⟩ | ⟨hend, -⟩
    · exact absurd (Except.error.inj (hres.symm.trans hres') ▸ hr') hr
    · exact ⟨last, runs, hend, hres⟩
  rcases step_cases h with ⟨r, rfl, rfl, rfl⟩ | ⟨u', r, rfl, rfl, hdown, rfl⟩ |
    ⟨u', r, rfl, rfl, hdown, rfl⟩ | ⟨u', r, a, rfl, rfl, rfl⟩ | ⟨u', r, rfl, rfl, rfl⟩
  · simp [failing] at hf
  · simp [failing, hdown] at hf
  · simp only [failing, hdown, if_true, List.mem_singleton, Prod.mk.injEq] at hf
    obtain ⟨rfl, rfl⟩ := hf
    exact ⟨rfl, raised ⟨u, true, none⟩ r rfl rfl⟩
  · simp only [failing] at hf
    cases hres : (Attempt.mk u' g.down (some a)).result site chunk with
    | ok rows => simp [hres] at hf
    | error f' =>
      simp only [hres, List.mem_singleton, Prod.mk.injEq] at hf
      obtain ⟨rfl, rfl⟩ := hf
      exact ⟨rfl, raised ⟨u, g.down, some a⟩ r rfl hres⟩
  · simp [failing] at hf

/-- **Each step of a call brings its end nearer**: a retry uses a format above the one before. -/
theorem left_step {out : ℕ × Stage} (hok : st.Ok site errors g.fmtIdx)
    (h : st.step site chunk g m = some out) :
    out.2.left site.formats out.1 < st.left site.formats g.fmtIdx := by
  have after (last : Attempt) (runs : ℕ) : (afterError site chunk last runs).left site.formats
      g.fmtIdx ≤ 4 * (site.formats - 1 - last.fmtIdx) := by
    rcases afterError_cases site chunk last runs with ⟨h, -⟩ | ⟨h, -⟩
    · rw [h]
      exact le_rfl
    · rw [h]
      exact Nat.zero_le _
  rcases step_cases h with ⟨r, rfl, rfl, rfl⟩ | ⟨u, r, rfl, rfl, -, rfl⟩ |
    ⟨u, r, rfl, rfl, -, rfl⟩ | ⟨u, r, a, rfl, rfl, rfl⟩ | ⟨u, r, rfl, rfl, rfl⟩
  · simp only [left]
    omega
  · simp only [left]
    omega
  · have := after ⟨u, true, none⟩ r
    simp only [left] at this ⊢
    omega
  · have := after ⟨u, g.down, some a⟩ r
    simp only [left] at this ⊢
    omega
  · obtain ⟨-, hle, hlt, -⟩ := hok
    simp only [left]
    split_ifs with hu <;> omega

/-- What other threads do does not put it off. -/
theorem left_mono (st : Stage) (formats : ℕ) (hle : fmtIdx ≤ fmtIdx') :
    st.left formats fmtIdx' ≤ st.left formats fmtIdx := by
  cases st <;> simp only [left] <;> omega

/-- A call that has not ended can go on, whatever the runner answers. -/
theorem enabled (site : Site) (chunk : List Text) (g : Shared) (st : Stage) (answer : RunnerAnswer)
    (h : ∀ last runs, st ≠ .ended last runs) :
    ∃ m ∈ [Move.select, .run, .answer answer, .degrade], (st.step site chunk g m).isSome := by
  cases st with
  | select => exact ⟨.select, by simp, rfl⟩
  | selected => exact ⟨.run, by simp, rfl⟩
  | running => exact ⟨.answer answer, by simp, rfl⟩
  | degrade => exact ⟨.degrade, by simp, rfl⟩
  | ended last runs => exact absurd rfl (h last runs)

end Stage

/-! ## Threads -/

/-- The index is that of a format, and every call is as `Stage.Ok` says. -/
structure State.Inv (site : Site) (s : State) : Prop where
  lt : s.shared.fmtIdx < site.formats
  ok : ∀ c ∈ s.calls, ∀ stage, c.phase = .bjobs stage → stage.Ok site s.errors s.shared.fmtIdx

namespace State.Inv

variable {s s' : State}

/-- A step of a call, in terms of the index. -/
theorem call_step {c : Call} {m : CallMove} {out : ℕ × Call} (h : s.Inv site) (hc : c ∈ s.calls)
    (hstep : c.step site s.shared m = some out) :
    (out.1 = s.shared.fmtIdx ∨ (out.1 = s.shared.fmtIdx + 1 ∧ s.shared.fmtIdx + 1 < site.formats ∧
      FieldErrorAt site s.errors s.shared.fmtIdx)) ∧
    ∀ stage, out.2.phase = .bjobs stage →
      stage.Ok site (s.errors ++ c.failing site s.shared m) out.1 := by
  rcases Call.step_cases hstep with ⟨rfl, -, -, rfl⟩ | ⟨chunk, rest, rfl, -, -, rfl⟩ |
    ⟨m', stage, chunk, rest, out', rfl, hp, ht, hst, rfl⟩ |
      ⟨last, runs, chunk, rest, rfl, -, -, rfl⟩
  · exact ⟨.inl rfl, by simp⟩
  · refine ⟨.inl rfl, fun stage hstage => ?_⟩
    obtain rfl := Phase.bjobs.inj hstage
    exact Nat.zero_le _
  · have hok := h.ok c hc stage hp
    refine ⟨Stage.step_index hok hst, fun stage' hstage' => ?_⟩
    obtain rfl := Phase.bjobs.inj hstage'
    have hfail : c.failing site s.shared (.bjobs m') = stage.failing site chunk s.shared m' := by
      simp only [Call.failing, hp, ht]
    rw [hfail]
    exact hok.step hst
  · refine ⟨.inl rfl, fun stage hstage => ?_⟩
    simp only [Call.collect] at hstage
    split at hstage
    · cases hstage
    · split at hstage <;> cases hstage
    · cases hstage

/-- **A step leaves the index alone, or moves it on by one from a format with a field error.** -/
theorem step_index {a : Act} (h : s.Inv site) (hstep : s.step site a = some s') :
    s'.shared.fmtIdx = s.shared.fmtIdx ∨
      (s'.shared.fmtIdx = s.shared.fmtIdx + 1 ∧ s.shared.fmtIdx + 1 < site.formats ∧
        FieldErrorAt site s.errors s.shared.fmtIdx) := by
  rcases State.step_cases hstep with ⟨jobIds, rfl, rfl⟩ | ⟨i, m, c, out, rfl, hc, hout, rfl⟩ |
    ⟨rfl, rfl⟩
  · exact .inl rfl
  · exact (h.call_step (List.mem_of_getElem? hc) hout).1
  · exact .inl rfl

theorem le_of_step {a : Act} (h : s.Inv site) (hstep : s.step site a = some s') :
    s.shared.fmtIdx ≤ s'.shared.fmtIdx := by
  rcases h.step_index hstep with h | ⟨h, -⟩ <;> omega

theorem step {a : Act} (h : s.Inv site) (hstep : s.step site a = some s') : s'.Inv site := by
  refine ⟨?_, fun c' hc' stage hstage => ?_⟩
  · have hlt := h.lt
    rcases h.step_index hstep with hidx | ⟨hidx, hlt', -⟩ <;> omega
  · have hle := h.le_of_step hstep
    rcases State.step_cases hstep with ⟨jobIds, rfl, rfl⟩ | ⟨i, m, c, out, rfl, hc, hout, rfl⟩ |
      ⟨rfl, rfl⟩
    · rcases List.mem_append.mp hc' with hold | hnew
      · exact h.ok c' hold stage hstage
      · obtain rfl := List.mem_singleton.mp hnew
        exact absurd hstage (Call.start_phase site jobIds stage)
    · rcases mem_replaceAt hc' with hold | hnew
      · exact (h.ok c' hold stage hstage).mono hle
      · obtain rfl := List.mem_singleton.mp hnew
        exact (h.call_step (List.mem_of_getElem? hc) hout).2 stage hstage
    · exact h.ok c' hc' stage hstage

theorem of_reachable {level : ℕ} (hl : level < site.formats)
    (h : (queries site level).Reachable s) : s.Inv site := by
  refine h.invariant (fun s hs => ?_) fun s a s' _ hinv _ hstep => hinv.step hstep
  rw [show s = _ from hs]
  exact ⟨hl, by simp⟩

end State.Inv

/-- A step of a `_bjobs` call, in the system. -/
theorem State.step_bjobs {s s' : State} {i : ℕ} {m : Move} {c : Call} {stage : Stage}
    {rest : List (List Text)} (hstep : s.step site (.move i (.bjobs m)) = some s')
    (hc : s.calls[i]? = some c) (hp : c.phase = .bjobs stage) (ht : c.todo = chunk :: rest) :
    ∃ out, stage.step site chunk s.shared m = some out ∧ s'.shared.fmtIdx = out.1 ∧
      ∃ c', s'.calls[i]? = some c' ∧ c'.phase = .bjobs out.2 := by
  rw [State.step, hc, Option.bind_some, Option.map_eq_some_iff] at hstep
  obtain ⟨out, hout, rfl⟩ := hstep
  rcases Call.step_cases hout with ⟨hm, -⟩ | ⟨_, _, hm, -⟩ |
    ⟨m', stage', chunk', rest', out', hm, hp', ht', hst, rfl⟩ | ⟨_, _, _, _, hm, -⟩
  · cases hm
  · cases hm
  · obtain rfl := CallMove.bjobs.inj hm
    obtain rfl := Phase.bjobs.inj (hp.symm.trans hp')
    obtain ⟨rfl, rfl⟩ := List.cons.inj (ht.symm.trans ht')
    exact ⟨out', hst, rfl, _, getElem?_replaceAt_self hc _, rfl⟩
  · cases hm

/-- The other steps leave a `_bjobs` call where it is; its own bring its end nearer. -/
theorem State.Inv.left_step {s s' : State} {a : Act} (h : s.Inv site)
    (hstep : s.step site a = some s') {i : ℕ} {c : Call} {stage : Stage}
    (hc : s.calls[i]? = some c) (hp : c.phase = .bjobs stage) (ha : a ≠ .move i .collect) :
    ∃ c' stage', s'.calls[i]? = some c' ∧ c'.phase = .bjobs stage' ∧
      stage'.left site.formats s'.shared.fmtIdx ≤ stage.left site.formats s.shared.fmtIdx ∧
      ((∃ m, a = .move i m) → stage'.left site.formats s'.shared.fmtIdx <
        stage.left site.formats s.shared.fmtIdx) := by
  have hle := h.le_of_step hstep
  rcases State.step_cases hstep with ⟨jobIds, rfl, rfl⟩ | ⟨j, m, d, out, rfl, hd, hout, rfl⟩ |
    ⟨rfl, rfl⟩
  · refine ⟨c, stage, ?_, hp, le_rfl, by simp⟩
    have hlt := (List.getElem?_eq_some_iff.mp hc).1
    rw [← hc]
    exact List.getElem?_append_left hlt
  · by_cases hij : j = i
    · subst hij
      obtain rfl := Option.some.inj (hd.symm.trans hc)
      rcases Call.step_cases hout with ⟨-, hp', -⟩ | ⟨_, _, -, hp', -⟩ |
        ⟨m', stage₀, chunk, rest, out', rfl, hp', ht, hst, rfl⟩ | ⟨_, _, _, _, rfl, -⟩
      · simp [hp] at hp'
      · simp [hp] at hp'
      · obtain rfl := Phase.bjobs.inj (hp.symm.trans hp')
        have hlt := Stage.left_step (h.ok d (List.mem_of_getElem? hd) stage hp) hst
        exact ⟨_, out'.2, getElem?_replaceAt_self hd _, rfl, hlt.le, fun _ => hlt⟩
      · exact absurd rfl ha
    · refine ⟨c, stage, ?_, hp, stage.left_mono _ hle, ?_⟩
      · rw [← hc]
        exact getElem?_replaceAt_ne hd _ hij
      · rintro ⟨m', hm⟩
        simp only [Act.move.injEq] at hm
        exact absurd hm.1 hij
  · exact ⟨c, stage, hc, hp, le_rfl, by simp⟩

/-- **Format degradation is monotone and one step at a time**, for any threads in any interleaving
and any answers of the runner.  The index is always that of a format.  A step leaves it alone or
moves it on by one, from a format some query with which got an error that looks like an unknown
field; any other error of a query leaves it alone and is what `_bjobs` raises.  A `_bjobs` call runs
at most one command for each format and ends: while it has not, it can go on whatever the runner
answers, each of its own steps lowers the bound `left` on the steps to come, and no other step
raises it. -/
theorem formats_degrade (site : Site) {s : State} (h : (queries site 0).Reachable s) :
    s.shared.fmtIdx < site.formats ∧
    (∀ a s', s.step site a = some s' →
      s'.shared.fmtIdx = s.shared.fmtIdx ∨
        (s'.shared.fmtIdx = s.shared.fmtIdx + 1 ∧
          ∃ e, (s.shared.fmtIdx, Failure.command e) ∈ s.errors ∧
            site.looksLikeFieldError e.stderr = true)) ∧
    (∀ i c stage chunk rest, s.calls[i]? = some c → c.phase = .bjobs stage →
      c.todo = chunk :: rest →
      (∀ m s' usedIdx f, s.step site (.move i (.bjobs m)) = some s' →
        (usedIdx, f) ∈ stage.failing site chunk s.shared m →
        ¬ (usedIdx + 1 < site.formats ∧
          ∃ e, f = .command e ∧ site.looksLikeFieldError e.stderr = true) →
        s'.shared.fmtIdx = s.shared.fmtIdx ∧
          ∃ c' last runs, s'.calls[i]? = some c' ∧ c'.phase = .bjobs (.ended last runs) ∧
            last.result site chunk = .error f) ∧
      stage.runs ≤ site.formats ∧
      ((∀ last runs, stage ≠ .ended last runs) → ∀ answer,
        ∃ m ∈ [Move.select, .run, .answer answer, .degrade],
          (s.step site (.move i (.bjobs m))).isSome) ∧
      ∀ a s', s.step site a = some s' → a ≠ .move i .collect →
        ∃ c' stage', s'.calls[i]? = some c' ∧ c'.phase = .bjobs stage' ∧
          stage'.left site.formats s'.shared.fmtIdx ≤ stage.left site.formats s.shared.fmtIdx ∧
          ((∃ m, a = .move i m) → stage'.left site.formats s'.shared.fmtIdx <
            stage.left site.formats s.shared.fmtIdx)) := by
  have hinv := State.Inv.of_reachable (formats_pos site) h
  refine ⟨hinv.lt, fun a s' hstep => ?_, fun i c stage chunk rest hc hp ht => ⟨?_, ?_, ?_, ?_⟩⟩
  · exact (hinv.step_index hstep).imp_right fun ⟨hidx, _, herr⟩ => ⟨hidx, herr⟩
  · intro m s' usedIdx f hstep hf hr
    obtain ⟨out, hst, hidx, c', hc', hp'⟩ := State.step_bjobs hstep hc hp ht
    obtain ⟨hsame, last, runs, hend, hres⟩ := Stage.step_raises hst hf hr
    exact ⟨hidx.trans hsame, c', last, runs, hc', hend ▸ hp', hres⟩
  · exact (hinv.ok c (List.mem_of_getElem? hc) stage hp).runs_le hinv.lt
  · intro hne answer
    obtain ⟨m, hm, hsome⟩ := Stage.enabled site chunk s.shared stage answer hne
    exact ⟨m, hm, by simpa [State.step, hc, Call.step, hp, ht] using hsome⟩
  · exact fun a s' hstep ha => hinv.left_step hstep hc hp ha

/-- Two calls get the same error; the second one to come to the lock finds the index moved on. -/
theorem formats_degrade_twice : ∃ s, (queries plainSite 0).Reachable s ∧ s.shared.fmtIdx = 1 ∧
    1 < plainSite.formats := by
  let err : RunnerAnswer := .result 255 [] "Unknown field".toList
  let call (i : ℕ) (m : Move) : Act := .move i (.bjobs m)
  have hrun : ((queries plainSite 0).run { shared := ⟨0, false⟩ }
      [.call [7], .call [8], .move 0 .next, .move 1 .next, call 0 .select, call 1 .select,
        call 0 .run, call 1 .run, call 0 (.answer err), call 1 (.answer err), call 0 .degrade,
        call 1 .degrade]).bind (fun s => if s.shared.fmtIdx = 1 then some () else none)
      = some () := by decide +kernel
  obtain ⟨s, hs, hidx⟩ := Option.bind_eq_some_iff.mp hrun
  rw [Option.ite_none_right_eq_some] at hidx
  have hreach := System.reachable_of_run (.init rfl) hs
  exact ⟨s, hreach, hidx.1, hidx.1 ▸ (formats_degrade plainSite hreach).1⟩

end Lsfmgr.Command
