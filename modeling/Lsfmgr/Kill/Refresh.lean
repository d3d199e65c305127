import Mathlib
import Lsfmgr.Kill.Marking
import Lsfmgr.Monitor.Frame

/-!
# Kill/Refresh — what a kill writes before its marks

Until its marks a kill reads, and its status queries write what they find.  Such a write is made of
the rows for records an earlier call has read on LSF, and each of these is only written while it
still is as it was read; so no status query takes a mark away, or sets one.
-/

namespace Lsfmgr.Kill

open Machinery Command Monitor

/-- A status query of `js` has read its targets in one of these calls, and LSF has answered for
their ids. -/
structure Looked (w : World) (log : List (Call InMemoryStore)) (js : String) (v : View) : Prop where
  targets : ∃ c ∈ log, c.before.getJobs js (some JobState.isOnLsf) = .ok v.targets
  answer : targetIds v.targets = [] ∧ v.rows = [] ∧ v.failed = ∅ ∨
    ∃ n, w.queryIds n (targetIds v.targets) = .ok (v.rows, v.failed)

/-- **A write of a status query**, made after the calls `log`: of its observations, or of its
losses. -/
inductive Refresh (w : World) (cfg : Monitor.Config) (log : List (Call InMemoryStore))
    (c : Call InMemoryStore) : Prop
  | updates {js : String} {v : View} {now : Time} : Looked w log js v →
      c.after = (c.before.transitionMany now js (updateSpecs cfg v)).2 →
      Framed js v.targets observedFrom c.before c.after → Refresh w cfg log c
  | losses {js : String} {v : View} {n : ℕ} {now : Time} : Looked w log js v → v.now = w.clock n →
      c.after =
        (c.before.transitionMany now js (lostSpecs (lostRecords cfg v (w.streaks n js)))).2 →
      Framed js v.targets lostFrom c.before c.after → Refresh w cfg log c

/-- **The calls of a kill that has marked nothing**: each has written nothing, or is a write of one
of its status queries. -/
def Reads (w : World) (cfg : Monitor.Config) (log : List (Call InMemoryStore)) : Prop :=
  ∀ before c, before ++ [c] <+: log → c.Quiet ∨ Refresh w cfg before c

/-- The `killed` flags are as they were. -/
def KeepsFlags (c : Call InMemoryStore) : Prop :=
  ∀ js k, (c.after.job? js k).map (·.killed) = (c.before.job? js k).map (·.killed)

section

variable {w : World} {cfg : Monitor.Config} {log : List (Call InMemoryStore)}
    {c : Call InMemoryStore} {js : String}
  {v : View}

theorem Looked.append (h : Looked w log js v) (c : Call InMemoryStore) :
    Looked w (log ++ [c]) js v :=
  ⟨h.targets.imp fun _ hc => ⟨List.mem_append_left _ hc.1, hc.2⟩, h.answer⟩

theorem Reads.nil : Reads w cfg [] := fun before c h => by
  simp at h

theorem Reads.append (h : Reads w cfg log) (hc : c.Quiet ∨ Refresh w cfg log c) :
    Reads w cfg (log ++ [c]) := by
  intro before d hpre
  rcases List.prefix_concat_iff.mp hpre with heq | hpre
  · obtain ⟨rfl, hd⟩ := List.append_inj' heq rfl
    obtain rfl := List.singleton_inj.mp hd
    exact hc
  · exact h before d hpre

/-- **A write that leaves all but some fields alone leaves the flags alone**, if the flag is none of
them. -/
theorem keepsFlags_of_framed {rest : JobRecord → JobRecord → JobRecord} {snapshot : List JobRecord}
    (h : Framed js snapshot rest c.before c.after)
    (hrest : ∀ r new, (rest r new).killed = r.killed) :
    KeepsFlags c := by
  intro js' k
  by_cases hjs : js' = js
  · subst hjs
    rcases hj : c.before.job? js' k with - | cur
    · rw [h.gone k hj]
    · obtain ⟨new, hnew, rfl | heq⟩ := h.written k cur hj
      · rw [hnew]
      · rw [hnew, Option.map_some, Option.map_some, heq, hrest]
  · rw [h.other js' k hjs]

theorem Refresh.keepsFlags (h : Refresh w cfg log c) : KeepsFlags c := by
  cases h with
  | updates _ _ hframed => exact keepsFlags_of_framed hframed fun _ _ => rfl
  | losses _ _ _ hframed => exact keepsFlags_of_framed hframed fun _ _ => rfl

theorem Reads.keepsFlags (h : Reads w cfg log) (hc : c ∈ log) : KeepsFlags c := by
  obtain ⟨before, after, rfl⟩ := List.append_of_mem hc
  rcases h before c ⟨after, by simp⟩ with hquiet | hrefresh
  · intro js k
    rw [hquiet]
  · exact hrefresh.keepsFlags

end

/-! ## Until the marks -/

/-- Nothing is marked yet, and this is noted. -/
structure Idle (w : World) (policy : Policy) (start : InMemoryStore) (notes : Notes)
    (a : Amid InMemoryStore Notes) : Prop where
  chained : Chained w.others start a.log a.shared
  reads : Reads w policy.monitor a.log
  placed : a.shared.Placed
  notes : a.notes = notes

section Reading

variable {w : World} {policy : Policy} {a : Amid InMemoryStore Notes}
    {start : InMemoryStore} {notes : Notes}
  {α : Type} {R : List (Call InMemoryStore) → Prop}

theorem Idle.call {after : InMemoryStore} (h : Idle w policy start notes a)
    (hc : Call.Quiet ⟨w.others a.log.length a.shared, after⟩ ∨
      Refresh w policy.monitor a.log ⟨w.others a.log.length a.shared, after⟩) (hp : after.Placed) :
    Idle w policy start notes ⟨after, a.log ++
        [⟨w.others a.log.length a.shared, after⟩], a.notes⟩ :=
  ⟨h.chained.call _, h.reads.append hc, hp, h.notes⟩

theorem read_idle (hw : w.Lawful) (f : InMemoryStore → Except StoreError α) :
    Prog.Triple (Idle w policy start notes) (read w f)
      (fun x a => Idle w policy start notes a ∧ ∃ c ∈ a.log, c.before.Placed ∧ f c.before = .ok x)
      (fun e a => Idle w policy start notes a ∧ ∃ c ∈ a.log, ∃ err,
          f c.before = .error err ∧ e = .store err) := by
  refine Prog.Triple.call fun a ha r after hf => ?_
  obtain ⟨rfl, rfl⟩ := Prod.mk.inj hf
  have hp := hw a.log.length _ ha.placed
  have hmem :
    (⟨w.others a.log.length a.shared, w.others a.log.length a.shared⟩ : Call InMemoryStore) ∈
      a.log ++ [⟨w.others a.log.length a.shared, w.others a.log.length a.shared⟩] :=
    List.mem_append_right _ List.mem_cons_self
  rcases hx : f (w.others a.log.length a.shared) with e | x
  · exact ⟨ha.call (.inl rfl) hp, _, hmem, e, hx, rfl⟩
  · exact ⟨ha.call (.inl rfl) hp, _, hmem, hp, hx⟩

/-- A question leaves what is known of the calls so far. -/
theorem ask_idle (hw : w.Lawful) (hR : ∀ log c, R log → R (log ++ [c])) (f : ℕ → Except Failure α) :
    Prog.Triple (fun a => Idle w policy start notes a ∧ R a.log) (ask w f)
      (fun x a => (Idle w policy start notes a ∧ R a.log) ∧ ∃ n, f n = .ok x)
      (fun e a => Idle w policy start notes a ∧ ∃ n, f n = .error e) := by
  refine Prog.Triple.call fun a ha r after hf => ?_
  obtain ⟨rfl, rfl⟩ := Prod.mk.inj hf
  have hidle := ha.1.call (.inl rfl) (hw a.log.length _ ha.1.placed)
  rcases hx : f a.log.length with e | x
  · exact ⟨hidle, _, hx⟩
  · exact ⟨⟨hidle, hR _ _ ha.2⟩, _, hx⟩

/-- A batch of safe items that is a write of a status query. -/
theorem writeMany_idle (hw : w.Lawful) (hR : ∀ log c, R log → R (log ++ [c])) (js : String)
    {specs : List TransitionSpec} (hsafe : ∀ spec ∈ specs, InMemoryStore.SafeSpec spec)
    (hnd : (specs.map (·.jobKey)).Nodup)
    (hrefresh : ∀ (log : List (Call InMemoryStore)) (before : InMemoryStore) (now : Time),
      before.Placed → R log →
      Refresh w policy.monitor log ⟨before, (before.transitionMany now js specs).2⟩) :
    Prog.Triple (fun a => Idle w policy start notes a ∧ R a.log) (writeMany w js specs)
      (fun _ a => Idle w policy start notes a ∧ R a.log) (fun _ _ => False) := by
  refine Prog.Triple.call fun a ha r after hf => ?_
  have hp := hw a.log.length _ ha.1.placed
  obtain ⟨out, s', hrun, hp', -⟩ :=
    InMemoryStore.transitionMany_ok js (w.clock a.log.length) hp hsafe hnd
  have hstep := hrefresh a.log _ (w.clock a.log.length) hp ha.2
  simp only [hrun] at hf hstep
  obtain ⟨rfl, rfl⟩ := Prod.mk.inj hf
  exact ⟨ha.1.call (.inr hstep) hp', hR _ _ ha.2⟩

/-- An evaluation without calls. -/
theorem ofExcept_idle (x : Except Failure α) :
    Prog.Triple (Idle w policy start notes) (Prog.ofExcept x)
      (fun b a => Idle w policy start notes a ∧ x = .ok b)
      (fun e a => Idle w policy start notes a ∧ x = .error e) :=
  Prog.Triple.ofExcept (fun _ _ hx ha => ⟨ha, hx⟩) fun _ _ hx ha => ⟨ha, hx⟩

theorem orValueError_idle (x : Option α) :
    Prog.Triple (Idle w policy start notes) (orValueError x)
      (fun b a => Idle w policy start notes a ∧ x = some b)
      (fun _ a => Idle w policy start notes a ∧ x = none) := by
  cases x with
  | none =>
    exact (ofExcept_idle _).mono (fun _ h => h) (fun _ _ h => by cases h.2) fun _ _ h => ⟨h.1, rfl⟩
  | some b =>
    exact (ofExcept_idle _).mono (fun _ h => h)
      (fun _ _ h => ⟨h.1, congrArg some (Except.ok.inj h.2)⟩)
      fun _ _ h => by cases h.2

/-- What is answered, where an `LsfmgrError` is caught. -/
theorem catching_ask (hw : w.Lawful) (f : ℕ → Except Failure α) :
    Prog.Triple (Idle w policy start notes) (Amid.catching Failure.isLsfmgrError (ask w f))
      (fun _ => Idle w policy start notes)
      (fun e a => Idle w policy start notes a ∧ e.isLsfmgrError = false ∧ ∃ n, f n = .error e) := by
  have hask := (ask_idle hw (R := fun _ => True) (fun _ _ _ => trivial) f).mono
    (fun a (h : Idle w policy start notes a) => ⟨h, trivial⟩) (fun _ _ h => h) fun _ _ h => h
  exact hask.catching (fun _ _ h => h.1.1) (fun _ _ _ h => h.1) fun _ _ he h => ⟨h.1, he, h.2⟩

/-! ## A status query -/

/-- A read of a jobset fails because the jobset is gone. -/
theorem isRecordGone_of_getJobset {s : InMemoryStore} {js : String} {e : StoreError}
    (h : s.getJobset js = .error e) : e.isRecordGone = true := by
  rw [InMemoryStore.getJobset] at h
  split at h
  case h_1 => cases h
  case h_2 =>
    obtain rfl := Except.error.inj h
    rfl

theorem isRecordGone_of_getJobs {s : InMemoryStore} {js : String}
    {states : Option (JobState → Bool)}
    {e : StoreError} (h : s.getJobs js states = .error e) : e.isRecordGone = true := by
  rw [InMemoryStore.getJobs] at h
  split at h
  case isTrue => cases h
  case isFalse =>
    obtain rfl := Except.error.inj h
    rfl

theorem isRecordGone_of_summary {s : InMemoryStore} {js : String} {e : StoreError}
    (h : s.summary js = .error e) : e.isRecordGone = true := by
  rw [InMemoryStore.summary] at h
  rcases hj : s.getJobset js with e' | r
  · rw [hj] at h
    obtain rfl := Except.error.inj h
    exact isRecordGone_of_getJobset hj
  · rw [hj] at h
    cases h

/-- What a status query raises: that its jobset is gone, or what LSF was asked for raises. -/
def Unasked (w : World) (e : Failure) : Prop :=
  e.isLsfmgrError = false → ∃ n ids, w.queryIds n ids = .error e

/-- A read that only fails for a jobset that is gone. -/
theorem read_unasked (hw : w.Lawful) {f : InMemoryStore → Except StoreError α}
    (hf : ∀ s e, f s = .error e → e.isRecordGone = true) :
    Prog.Triple (Idle w policy start notes) (read w f)
      (fun x a => Idle w policy start notes a ∧ ∃ c ∈ a.log, c.before.Placed ∧ f c.before = .ok x)
      (fun e a => Idle w policy start notes a ∧ Unasked w e) := by
  refine (read_idle hw f).mono (fun _ h => h) (fun _ _ h => h) fun e a h => ⟨h.1, fun hlsf => ?_⟩
  obtain ⟨-, c, -, err, herr, rfl⟩ := h
  rw [Failure.isLsfmgrError, hf _ _ herr] at hlsf
  cases hlsf

/-- The targets have been read in one of the calls. -/
def Targeted (js : String) (targets : List JobRecord) (log : List (Call InMemoryStore)) : Prop :=
  ∃ c ∈ log, c.before.getJobs js (some JobState.isOnLsf) = .ok targets

theorem Targeted.append {js : String} {targets : List JobRecord} (log : List (Call InMemoryStore))
    (c : Call InMemoryStore) (h : Targeted js targets log) : Targeted js targets (log ++ [c]) :=
  h.imp fun _ hc => ⟨List.mem_append_left _ hc.1, hc.2⟩

theorem askRows_idle (hw : w.Lawful) (js : String) (targets : List JobRecord) :
    Prog.Triple (fun a => Idle w policy start notes a ∧ Targeted js targets a.log)
      (askRows w targets)
      (fun x a => Idle w policy start notes a ∧ ∀ now, Looked w a.log js ⟨targets, x.1, x.2, now⟩)
      (fun e a => Idle w policy start notes a ∧ Unasked w e) := by
  rw [askRows]
  refine Prog.Triple.ite (fun hnone => Prog.Triple.ret fun a h => ?_) fun _ => ?_
  · exact ⟨h.1, fun now => ⟨h.2, .inl ⟨hnone, rfl, rfl⟩⟩⟩
  · refine (ask_idle hw Targeted.append _).mono (fun _ h => h) (fun x a h => ?_) fun e a h => ?_
    · obtain ⟨⟨hidle, htargeted⟩, n, hn⟩ := h
      exact ⟨hidle, fun now => ⟨htargeted, .inr ⟨n, hn⟩⟩⟩
    · obtain ⟨hidle, n, hn⟩ := h
      exact ⟨hidle, fun _ => ⟨n, _, hn⟩⟩

/-- **A status query writes nothing but what it finds.** -/
theorem query_idle (hw : w.Lawful) (js : String) :
    Prog.Triple (Idle w policy start notes) (query w policy js) (fun _ => Idle w policy start notes)
      (fun e a => Idle w policy start notes a ∧ Unasked w e) := by
  rw [query]
  refine Prog.Triple.bind (read_unasked hw fun _ _ => isRecordGone_of_getJobset) fun _ => ?_
  refine Prog.Triple.bind
    ((read_unasked hw fun _ _ => isRecordGone_of_getJobs).mono (fun _ h => h.1)
    (fun _ _ h => h) fun _ _ h => h) fun targets => ?_
  have hsummary : Prog.Triple (Idle w policy start notes) (read w (·.summary js))
      (fun _ => Idle w policy start notes) (fun e a => Idle w policy start notes a ∧ Unasked w e) :=
    (read_unasked hw fun _ _ => isRecordGone_of_summary).mono (fun _ h => h) (fun _ _ h => h.1)
      fun _ _ h => h
  refine Prog.Triple.ite (fun _ => ?_) fun _ => ?_
  · exact Prog.Triple.bind (hsummary.mono (fun _ h => h.1) (fun _ _ h => h) fun _ _ h => h) fun _ =>
      Prog.Triple.ret fun _ h => h
  refine Prog.Triple.assuming (φ := (targets.map (·.jobKey)).Nodup) (fun a h => ?_) fun hnd => ?_
  · obtain ⟨-, c, -, hp, hjobs⟩ := h
    exact nodup_snapshot hp hjobs
  refine Prog.Triple.bind ((askRows_idle hw js targets).mono
    (fun _ h => ⟨h.1, h.2.imp fun _ hc => ⟨hc.1, hc.2.2⟩⟩) (fun _ _ h => h) fun _ _ h => h)
      fun ⟨rows, failed⟩ => ?_
  refine Prog.Triple.bind
    ((ask_idle hw (R := fun log => ∀ now, Looked w log js ⟨targets, rows, failed, now⟩)
    (fun _ c h now => (h now).append c) _).mono (fun _ h => h) (fun _ _ h => h) fun _ _ h => ?_)
    fun ⟨prev, now⟩ => ?_
  · obtain ⟨-, n, hn⟩ := h
    cases hn
  refine Prog.Triple.assuming (fun _ h => h.2) fun ⟨n, hn⟩ => ?_
  obtain ⟨rfl, rfl⟩ := Prod.mk.inj (Except.ok.inj hn)
  set v : View := { targets, rows, failed, now := w.clock n }
  have happend (log : List (Call InMemoryStore)) (c : Call InMemoryStore) (h : Looked w log js v) :
      Looked w (log ++ [c]) js v := h.append c
  refine Prog.Triple.bind ((writeMany_idle hw happend js (safe_updateSpecs policy.monitor v)
    (nodup_updateSpecs hnd) fun _ _ now hp hlooked => .updates hlooked rfl
      (framed_updates hp hnd now)).mono
    (fun _ h => ⟨h.1.1, h.1.2 _⟩) (fun _ _ h => h) fun _ _ h => h.elim) fun changed => ?_
  refine Prog.Triple.bind ((writeMany_idle hw happend js safe_lostSpecs
    (nodup_lostSpecs (nodup_lostRecords hnd)) fun _ _ now hp hlooked =>
      .losses hlooked rfl rfl (framed_losses hp hnd _ now)).mono
    (fun _ h => h) (fun _ _ h => h.1) fun _ _ h => h.elim) fun lost => ?_
  exact Prog.Triple.bind hsummary fun _ => Prog.Triple.ret fun _ h => h

/-- A status query, where an `LsfmgrError` is caught. -/
theorem catching_query (hw : w.Lawful) (js : String) :
    Prog.Triple (Idle w policy start notes)
      (Amid.catching Failure.isLsfmgrError (query w policy js))
      (fun _ => Idle w policy start notes)
      (fun e a => Idle w policy start notes a ∧ e.isLsfmgrError = false ∧
          ∃ n ids, w.queryIds n ids = .error e) :=
  (query_idle hw js).catching (fun _ _ h => h) (fun _ _ _ h => h.1)
    fun _ _ he h => ⟨h.1, he, h.2 he⟩

end Reading

end Lsfmgr.Kill
