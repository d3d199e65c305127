import Mathlib
import Lsfmgr.Handlers.Rearm
import Lsfmgr.Jobset.Summary

/-!
# Handlers/FinalOnce — one last run for each execution of a job

A handler's finished mark is all that keeps it from a second last run, and a rearm takes the mark
away.  That is right if the execution the mark belongs to is over by then, or has not had its last
run.  An edit or a removal leaves no time between the two; a `records_reset` does: the new execution
may have ended, and had its last run, before the signal arrives (`lateRearm`).  Where no last run
starts for an execution whose `records_reset` is still under way, the property holds (`finalOnce`).

The invariant `Once` says of every execution with a last run: its handlers hold the finished mark
for as long as the execution can be seen, no signal under way names it (`Once.settled`), and no
rearm the main thread is about to do meets it (`Once.due`).
-/

namespace Lsfmgr

namespace Handlers

open Machinery

namespace Main

/-- The evaluations to come. -/
def todo : Main → List (HandlerKey × JobRecord)
  | evaluating todo | marking _ todo | enqueuing _ todo => todo
  | _ => []

/-- The item decided on and not yet queued. -/
def item? : Main → Option Item
  | marking i _ | enqueuing i _ => some i
  | _ => none

end Main

namespace Service

/-- The last runs decided on. -/
def finals (s : Service) : List Item := (s.main.item?.toList ++ s.enqueued).filter (·.final)

/-- The evaluation of `rec` under the handler at `k` starts a last run. -/
def startsFinal (s : Service) (k : HandlerKey) (rec : JobRecord) : Bool :=
  match s.handlers.get? k with
  | none => false
  | some h => h.statusOf rec.jobKey ≠ .finished ∧ (k.1, k.2, rec.jobKey) ∉ s.inflight ∧
      rec.state ∈ h.endStates

/-- The record can still be evaluated under the handler at `k`. -/
def Visible (s : Service) (k : HandlerKey) (rec : JobRecord) : Prop :=
  s.store.job? k.1 rec.jobKey = some rec ∨ (k, rec) ∈ s.main.todo

end Service

/-- The registration, the job and the execution a run is for. -/
def Item.runKey (i : Item) : ℕ × String × ℕ := (i.handler, i.record.jobKey, i.record.generation)

/-- **At most one last run** for each registration, job and execution. -/
def FinalOnce (s : Service) : Prop := ((s.started.filter (·.final)).map Item.runKey).Nodup

instance (s : Service) : Decidable (FinalOnce s) := inferInstanceAs (Decidable (List.Nodup _))

theorem Handler.verdict_eq_run_true {h : Handler} {inflight : Bool} {rec : JobRecord} :
    h.verdict inflight rec = .run true ↔
      h.statusOf rec.jobKey ≠ .finished ∧ inflight = false ∧ rec.state ∈ h.endStates := by
  rw [Handler.verdict]
  dsimp only
  split_ifs with hbusy hclose hskip
  · simp only [false_iff]
    rintro ⟨hst, hin, -⟩
    simp [hst, hin] at hbusy
  · simp [hclose.2]
  · simp [hskip.2.2]
  · have hidle : h.statusOf rec.jobKey ≠ .finished ∧ inflight = false := by simpa using hbusy
    simp [hidle]

/-- The mark of a finished job stays under evaluation. -/
theorem Handler.statusOf_setStatus {h : Handler} {inflight : Bool}
    {rec : JobRecord} {jobKey : String}
    (hf : h.statusOf jobKey = .finished) :
    (h.setStatus rec.jobKey (h.verdict inflight rec).progress?).statusOf jobKey = .finished := by
  by_cases hk : rec.jobKey = jobKey
  · have : h.verdict inflight rec = .skip := by simp [Handler.verdict, hk, hf]
    rw [this]
    exact hf
  · rcases (h.verdict inflight rec).progress? with _ | p
    · exact hf
    · simpa [Handler.setStatus, Handler.statusOf, Dict.get?_set, Ne.symm hk] using hf

namespace Rearm

/-- A signal that will be honoured carries the execution of the record, or is going to. -/
def State.underWay (s : State) (rec : JobRecord) : Bool :=
  s.launches.any (fun l => s.arms.get? l.jobsetId = some l.token ∧
    l.reset.any fun r => r.generation = rec.generation) ||
  s.notes.any fun n => match n with
    | .recordsReset js token records => s.arms.get? js = some token ∧
        records.any fun r => r.generation = rec.generation
    | .gateRejected .. => false

/-- **The condition**: no evaluation starts a last run for an execution whose `records_reset` is
under way. -/
def InTime (s : State) (a : Act) : Prop :=
  ∀ k rec todo, a = .service .main → s.svc.main = .evaluating ((k, rec) :: todo) →
    s.svc.startsFinal k rec = true → s.underWay rec = false

/-- The jobset, and the keys, that the main thread is about to rearm. -/
def Duty.scope : Duty → Option (String × Option (List String))
  | .none => Option.none
  | .editing js _ _ changed => some (js, some changed)
  | .rearming js keys => some (js, keys)

structure Once (s : State) : Prop where
  represented : s.store.Represented
  drawn_store : ∀ js k r, s.store.job? js k = some r → r.generation ∈ s.drawn
  drawn_todo : ∀ e ∈ s.svc.main.todo, e.2.generation ∈ s.drawn
  drawn_final : ∀ i ∈ s.svc.finals, i.record.generation ∈ s.drawn
  ids : ∀ k h, s.svc.handlers.get? k = some h → h.id < s.svc.nextId
  ids_final : ∀ i ∈ s.svc.finals, i.handler < s.svc.nextId
  distinct : ∀ k k' h h', s.svc.handlers.get? k = some h → s.svc.handlers.get? k' = some h' →
    h.id = h'.id → k = k'
  once : (s.svc.finals.map Item.runKey).Nodup
  /-- The mark stands while the execution can be seen. -/
  marked : ∀ i ∈ s.svc.finals, ∀ k h rec, s.svc.handlers.get? k = some h → h.id = i.handler →
    s.svc.Visible k rec → rec.jobKey = i.record.jobKey → rec.generation = i.record.generation →
    h.statusOf rec.jobKey = .finished
  tokens_launch : ∀ l ∈ s.launches, l.token < s.tokens
  tokens_note : ∀ js token records, Note.recordsReset js token records ∈ s.notes → token < s.tokens
  settled : ∀ i ∈ s.svc.finals, s.underWay i.record = false
  busy : s.duty.scope ≠ none → s.svc.main = .idle
  edited : ∀ js now todo changed, s.duty = .editing js now todo changed → ∀ p ∈ todo,
    p.1.jobsetId = js
  due : ∀ js keys, s.duty.scope = some (js, keys) → ∀ k, (∀ ks, keys = some ks → k ∈ ks) →
    ∀ rec, s.store.job? js k = some rec → ∀ i ∈ s.svc.finals,
      i.record.generation ≠ rec.generation

theorem once_init : Once {} where
  represented := InMemoryStore.represented_empty
  drawn_store _ _ _ h := by simp [State.store, InMemoryStore.job?] at h
  drawn_todo _ h := by cases h
  drawn_final _ h := by cases h
  ids _ _ h := by simp at h
  ids_final _ h := by cases h
  distinct _ _ _ _ h := by simp at h
  once := List.nodup_nil
  marked _ h := by cases h
  tokens_launch _ h := by cases h
  tokens_note _ _ _ h := by cases h
  settled _ h := by cases h
  busy h := absurd rfl h
  edited _ _ _ _ h := by cases h
  due _ _ h := by cases h

/-! ## The service's own steps -/

section Own

variable {s : State} {svc : Service}

/-- Every registration was there before, and finished jobs stay finished under it. -/
def KeepsMarks (hs hs' : Dict HandlerKey Handler) : Prop :=
  ∀ k h', hs'.get? k = some h' → ∃ h, hs.get? k = some h ∧ h.id = h'.id ∧
    ∀ jobKey, h.statusOf jobKey = .finished → h'.statusOf jobKey = .finished

theorem KeepsMarks.of_get? {hs hs' : Dict HandlerKey Handler}
    (h : ∀ k hd, hs'.get? k = some hd → hs.get? k = some hd) : KeepsMarks hs hs' :=
  fun k hd hk => ⟨hd, h k hd hk, rfl, fun _ => id⟩

theorem KeepsMarks.refl (hs : Dict HandlerKey Handler) : KeepsMarks hs hs := .of_get? fun _ _ => id

/-- An evaluation of a job leaves finished jobs finished. -/
theorem KeepsMarks.verdict {hs : Dict HandlerKey Handler} {k : HandlerKey} {hd : Handler}
    (hk : hs.get? k = some hd) (inflight : Bool) (rec : JobRecord) :
    KeepsMarks hs (hs.set k (hd.setStatus rec.jobKey (hd.verdict inflight rec).progress?)) := by
  intro k' hd' hk'
  rw [Dict.get?_set] at hk'
  split at hk'
  case isTrue heq =>
    subst heq
    obtain rfl := Option.some.inj hk'
    refine ⟨hd, hk, ?_, fun jobKey hf => Handler.statusOf_setStatus hf⟩
    rcases (hd.verdict inflight rec).progress? with _ | p <;> rfl
  case isFalse => exact ⟨hd', hk', rfl, fun _ => id⟩

/-- A step of the service that decides on no last run: what is to be evaluated was to be evaluated
before, or is what the store has. -/
theorem Once.congr (h : Once s) (hstore : svc.store = s.store)
    (hhand : KeepsMarks s.svc.handlers svc.handlers)
    (hnext : svc.nextId = s.svc.nextId) (hfin : svc.finals.Perm s.svc.finals)
    (htodo : ∀ e ∈ svc.main.todo, e ∈ s.svc.main.todo ∨ s.store.job? e.1.1 e.2.jobKey = some e.2)
    (hbusy : s.duty.scope ≠ none → svc.main = .idle) : Once { s with svc } where
  represented := by
    change svc.store.Represented
    rw [hstore]
    exact h.represented
  drawn_store js k r := by
    rw [State.store, hstore]
    exact h.drawn_store js k r
  drawn_todo e he := (htodo e he).elim (h.drawn_todo e) (h.drawn_store _ _ _)
  drawn_final i hi := h.drawn_final i (hfin.mem_iff.mp hi)
  ids k hd hk := by
    obtain ⟨hd₀, hk₀, hid, -⟩ := hhand k hd hk
    rw [hnext, ← hid]
    exact h.ids k hd₀ hk₀
  ids_final i hi := hnext ▸ h.ids_final i (hfin.mem_iff.mp hi)
  distinct k k' hd hd' hk hk' heq := by
    obtain ⟨hd₀, hk₀, hid, -⟩ := hhand k hd hk
    obtain ⟨hd₀', hk₀', hid', -⟩ := hhand k' hd' hk'
    exact h.distinct k k' hd₀ hd₀' hk₀ hk₀' (by rw [hid, hid', heq])
  once := (hfin.map Item.runKey).nodup_iff.mpr h.once
  marked i hi k hd rec hk heq hvis hkey hgen := by
    obtain ⟨hd₀, hk₀, hid, hmark⟩ := hhand k hd hk
    refine hmark _ (h.marked i (hfin.mem_iff.mp hi) k hd₀ rec hk₀ (hid.trans heq) ?_ hkey hgen)
    rcases hvis with hvis | hvis
    · exact .inl (by rwa [hstore] at hvis)
    · exact (htodo _ hvis).symm
  tokens_launch := h.tokens_launch
  tokens_note := h.tokens_note
  settled i hi := h.settled i (hfin.mem_iff.mp hi)
  busy := hbusy
  edited := h.edited
  due js keys hscope k hk rec hrec i hi :=
    h.due js keys hscope k hk rec (by rwa [State.store, hstore] at hrec) i (hfin.mem_iff.mp hi)

theorem finals_congr {t : Service} (hm : t.main.item? = svc.main.item?)
    (he : t.enqueued = svc.enqueued) : t.finals = svc.finals := by
  rw [Service.finals, hm, he, Service.finals]

/-- A worker decides on nothing. -/
theorem Once.workerStep (h : Once s) {w : ℕ} {out : Except String String} {emits : Bool}
    (hs : s.svc.workerStep w out emits = some svc) : Once { s with svc } := by
  have key : ∀ t : Service, t.store = s.svc.store → t.handlers = s.svc.handlers →
      t.nextId = s.svc.nextId → t.main = s.svc.main → t.enqueued = s.svc.enqueued →
      Once { s with svc := t } := fun t hst hh hn hm he =>
    h.congr hst (hh ▸ .refl _) hn (by rw [finals_congr (by rw [hm]) he])
      (fun e he => .inl (hm ▸ he)) (by rw [hm]; exact h.busy)
  rw [Service.workerStep] at hs
  split at hs
  · cases hs
  · obtain rfl := Option.some.inj hs
    rw [Service.take]
    split <;> exact key _ rfl rfl rfl rfl rfl
  · exact Option.some.inj hs ▸ key _ rfl rfl rfl rfl rfl
  · exact Option.some.inj hs ▸ key _ rfl rfl rfl rfl rfl
  · split at hs <;> exact Option.some.inj hs ▸ key _ rfl rfl rfl rfl rfl
  · exact Option.some.inj hs ▸ key _ rfl rfl rfl rfl rfl

/-- A new registration has no run yet. -/
theorem Once.addHandler (h : Once s) (js name : String) (startStates endStates : StateSpec) :
    Once { s with svc := s.svc.addHandler js name startStates endStates } := by
  rw [Service.addHandler]
  split
  · exact h
  · have hget : ∀ (hd₀ : Handler) k hd, (s.svc.handlers.set (js, name) hd₀).get? k = some hd →
        (k = (js, name) ∧ hd = hd₀) ∨ s.svc.handlers.get? k = some hd := by
      intro hd₀ k hd hk
      rw [Dict.get?_set] at hk
      split at hk
      case isTrue hkey => exact .inl ⟨hkey, (Option.some.inj hk).symm⟩
      case isFalse => exact .inr hk
    refine
      { h with
        ids := fun k hd hk => ?_
        ids_final := fun i hi => Nat.lt_succ_of_lt (h.ids_final i hi)
        distinct := fun k k' hd hd' hk hk' hid => ?_
        marked := fun i hi k hd rec hk hid hvis => ?_ }
    · rcases hget _ k hd hk with ⟨-, rfl⟩ | hk
      · exact Nat.lt_succ_self _
      · exact Nat.lt_succ_of_lt (h.ids k hd hk)
    · rcases hget _ k hd hk with ⟨rfl, rfl⟩ | hk <;> rcases hget _ k' hd' hk' with ⟨rfl, rfl⟩ | hk'
      · rfl
      · exact absurd hid (h.ids k' hd' hk').ne'
      · exact absurd hid (h.ids k hd hk).ne
      · exact h.distinct k k' hd hd' hk hk' hid
    · rcases hget _ k hd hk with ⟨rfl, rfl⟩ | hk
      · exact absurd hid (h.ids_final i hi).ne'
      · exact h.marked i hi k hd rec hk hid hvis

/-- **A last run is decided on**, for a registration that now has the mark, and for an execution
that had none and that no signal under way names. -/
theorem Once.decide (h : Once s) {todo : List (HandlerKey × JobRecord)} {i : Item}
    {k : HandlerKey} {hd : Handler} (hm : s.svc.main = .evaluating todo)
    (hk : s.svc.handlers.get? k = some hd) (hid : hd.id = i.handler)
    (hmark : hd.statusOf i.record.jobKey = .finished) (hdrawn : i.record.generation ∈ s.drawn)
    (hway : s.underWay i.record = false) (hnew : i.runKey ∉ s.svc.finals.map Item.runKey)
    (hfinal : i.final = true) : Once { s with svc := { s.svc with main := .marking i todo } } := by
  have hidle : s.duty.scope = none := by
    by_contra hne
    rw [h.busy hne] at hm
    cases hm
  have hfin : ({ s.svc with main := .marking i todo } : Service).finals = i :: s.svc.finals := by
    simp [Service.finals, Main.item?, hm, hfinal]
  have htodo : todo = s.svc.main.todo := by rw [hm]; rfl
  refine
    { h with
      drawn_todo := fun e he => h.drawn_todo e (htodo ▸ he)
      drawn_final := ?_
      ids_final := ?_
      once := ?_
      marked := ?_
      settled := ?_
      busy := fun hne => absurd hidle hne
      due := fun js keys hscope => ?_ }
  · rw [hfin]
    exact List.forall_mem_cons.mpr ⟨hdrawn, h.drawn_final⟩
  · rw [hfin]
    exact List.forall_mem_cons.mpr ⟨hid ▸ h.ids k hd hk, h.ids_final⟩
  · rw [hfin, List.map_cons]
    exact List.nodup_cons.mpr ⟨hnew, h.once⟩
  · rw [hfin]
    have hvis : ∀ {k' rec}, ({ s.svc with main := .marking i todo } : Service).Visible k' rec →
        s.svc.Visible k' rec := fun hvis => hvis.imp id fun hin => htodo ▸ hin
    refine List.forall_mem_cons.mpr ⟨fun k' hd' rec hk' hid' _ hkey _ => ?_,
      fun j hj k' hd' rec hk' hid' hv => h.marked j hj k' hd' rec hk' hid' (hvis hv)⟩
    obtain rfl := h.distinct k k' hd hd' hk hk' (hid.trans hid'.symm)
    obtain rfl := Option.some.inj (hk.symm.trans hk')
    rwa [hkey]
  · rw [hfin]
    exact List.forall_mem_cons.mpr ⟨hway, h.settled⟩
  · rw [hidle] at hscope
    cases hscope

/-- **The evaluation of one record.**  A last run is decided on only if the mark is not there, so
not for an execution that had one. -/
theorem Once.evalRecord (h : Once s) {k : HandlerKey} {rec : JobRecord}
    {todo : List (HandlerKey × JobRecord)} (hm : s.svc.main = .evaluating ((k, rec) :: todo))
    (hc : s.svc.startsFinal k rec = true → s.underWay rec = false) :
    Once { s with svc := s.svc.evalRecord k rec todo } := by
  have hidle : s.duty.scope = none := by
    by_contra hne
    rw [h.busy hne] at hm
    cases hm
  have hvis : s.svc.Visible k rec := .inr (by rw [hm]; exact List.mem_cons_self)
  have hfin : s.svc.finals = s.svc.enqueued.filter (·.final) := by rw [Service.finals, hm]; rfl
  have hquiet : ∀ t : Service, t.enqueued = s.svc.enqueued →
      t.main.item?.toList.filter (·.final) = [] → t.finals.Perm s.svc.finals := by
    intro t he hi
    rw [hfin, Service.finals, he, List.filter_append, hi, List.nil_append]
  have htodo : ∀ e ∈ todo, e ∈ s.svc.main.todo ∨ s.store.job? e.1.1 e.2.jobKey = some e.2 :=
    fun e he => .inl (by rw [hm]; exact List.mem_cons_of_mem _ he)
  rw [Service.evalRecord]
  split
  case h_1 =>
    exact h.congr rfl (.refl _) rfl (hquiet _ rfl rfl) htodo fun hne => absurd hidle hne
  case h_2 _ hd hk =>
    have hkeep := KeepsMarks.verdict hk ((k.1, k.2, rec.jobKey) ∈ s.svc.inflight) rec
    -- the status is set first, as if nothing were to run
    have hset : Once { s with svc := { s.svc with
        handlers := s.svc.handlers.set k (hd.setStatus rec.jobKey
          (hd.verdict ((k.1, k.2, rec.jobKey) ∈ s.svc.inflight) rec).progress?)
        main := .evaluating todo } } :=
      h.congr rfl hkeep rfl (hquiet _ rfl rfl) htodo fun hne => absurd hidle hne
    rcases hv : hd.verdict ((k.1, k.2, rec.jobKey) ∈ s.svc.inflight) rec with _ | _ | _ | _
    · rw [hv] at hset
      exact hset
    · rw [hv] at hset
      exact hset
    · rw [hv] at hkeep
      exact h.congr rfl hkeep rfl (hquiet _ rfl rfl) htodo fun hne => absurd hidle hne
    · rw [hv] at hset
      obtain ⟨hst, hin, hend⟩ := Handler.verdict_eq_run_true.mp hv
      have hstarts : s.svc.startsFinal k rec = true := by
        simpa [Service.startsFinal, hk, hst, hend] using hin
      refine hset.decide (i := ⟨hd.id, k.1, k.2, rec, true⟩) rfl
        (Dict.get?_set_self _ k _) rfl ?_ (h.drawn_todo (k, rec) ?_) (hc hstarts) ?_ rfl
      · simp [Handler.setStatus, Handler.statusOf, Verdict.progress?]
      · rw [hm]
        exact List.mem_cons_self
      · intro hmem
        have hfin₁ : ({ s.svc with
            handlers := s.svc.handlers.set k (hd.setStatus rec.jobKey (Verdict.run true).progress?)
            main := .evaluating todo } : Service).finals = s.svc.finals := hfin.symm
        rw [hfin₁] at hmem
        obtain ⟨j, hj, heq⟩ := List.mem_map.mp hmem
        obtain ⟨h₁, h₂, h₃⟩ : j.handler = hd.id ∧ j.record.jobKey = rec.jobKey ∧
          j.record.generation = rec.generation := by simpa [Item.runKey] using heq
        exact hst (h.marked j hj k hd rec hk h₁.symm hvis h₂.symm h₃.symm)

theorem Once.mainStep (h : Once s)
    (hc : ∀ k rec todo, s.svc.main = .evaluating ((k, rec) :: todo) →
      s.svc.startsFinal k rec = true → s.underWay rec = false)
    (hs : s.svc.mainStep = some svc) : Once { s with svc } := by
  have hidle : s.svc.main ≠ .idle → s.duty.scope = none := fun hne => by
    by_contra hd
    exact hne (h.busy hd)
  -- every other step only moves on, or moves the item it has decided on into the queue
  have key : ∀ t : Service, t.store = s.svc.store → t.handlers = s.svc.handlers →
      t.nextId = s.svc.nextId →
      (t.main.item?.toList ++ t.enqueued).Perm (s.svc.main.item?.toList ++ s.svc.enqueued) →
      (∀ e ∈ t.main.todo, e ∈ s.svc.main.todo) → s.svc.main ≠ .idle → Once { s with svc := t } :=
    fun t hst hh hn hp ht hne => h.congr hst (hh ▸ .refl _) hn (hp.filter _)
      (fun e he => .inl (ht e he))
      fun hd => absurd (hidle hne) hd
  rw [Service.mainStep] at hs
  split at hs
  · cases hs
  case h_2 hm =>
    obtain rfl := Option.some.inj hs
    exact key _ rfl rfl rfl (by rw [hm]; exact .refl _) (fun e he => by cases he)
      (by rw [hm]; exact Main.noConfusion)
  case h_3 hm =>
    obtain rfl := Option.some.inj hs
    exact h.evalRecord hm (hc _ _ _ hm)
  case h_4 hm =>
    obtain rfl := Option.some.inj hs
    exact key _ rfl rfl rfl (by rw [hm]; exact .refl _) (fun e he => by rw [hm]; exact he)
      (by rw [hm]; exact Main.noConfusion)
  case h_5 i todo hm =>
    obtain rfl := Option.some.inj hs
    refine key _ rfl rfl rfl ?_ (fun e he => by rw [hm]; exact he)
      (by rw [hm]; exact Main.noConfusion)
    rw [hm]
    exact List.perm_append_singleton i s.svc.enqueued
  case h_6 hm =>
    obtain rfl := Option.some.inj hs
    exact key _ rfl rfl rfl (by rw [hm]; exact .refl _) (fun e he => by cases he)
      (by rw [hm]; exact Main.noConfusion)
  case h_7 hm =>
    obtain rfl := Option.some.inj hs
    exact key _ rfl rfl rfl (by rw [hm]; exact .refl _) (fun e he => by cases he)
      (by rw [hm]; exact Main.noConfusion)
  case h_8 hm =>
    obtain rfl := Option.some.inj hs
    exact key _ rfl rfl rfl (by rw [hm]; exact .refl _) (fun e he => by cases he)
      (by rw [hm]; exact Main.noConfusion)
  case h_9 hm =>
    split at hs
    · obtain rfl := Option.some.inj hs
      exact key _ rfl rfl rfl (by rw [hm]; exact .refl _) (fun e he => by cases he)
        (by rw [hm]; exact Main.noConfusion)
    · cases hs
  case h_10 hm =>
    obtain rfl := Option.some.inj hs
    exact key _ rfl rfl rfl (by rw [hm]; exact .refl _) (fun e he => by cases he)
      (by rw [hm]; exact Main.noConfusion)

/-- A record that the store lists is the one at its key. -/
theorem job?_of_mem_getJobs {st : InMemoryStore} {js : String} {recs : List JobRecord}
    (hp : st.Placed) (h : st.getJobs js = .ok recs) {rec : JobRecord} (hrec : rec ∈ recs) :
    st.job? js rec.jobKey = some rec := by
  rw [InMemoryStore.getJobs] at h
  split at h
  · obtain rfl := Except.ok.inj h
    obtain ⟨jobs, hjobs, hmem⟩ : ∃ jobs, st.jobs.get? js = some jobs ∧ rec ∈ jobs.values := by
      rcases hj : st.jobs.get? js with _ | jobs
      · simp [hj] at hrec
      · exact ⟨jobs, rfl, by simpa [hj] using hrec⟩
    obtain ⟨k, hk⟩ := Dict.mem_values.mp hmem
    have hjob : st.job? js k = some rec := by simp [InMemoryStore.job?, hjobs, hk]
    rwa [(hp.own js k rec hjob).2]
  · cases h

theorem job?_of_getJob {st : InMemoryStore} {js k : String} {rec : JobRecord}
    (h : st.getJob js k = .ok rec) : st.job? js k = some rec := by
  rw [InMemoryStore.getJob] at h
  split at h
  case h_1 hjob => exact Except.ok.inj h ▸ hjob
  case h_2 => cases h

theorem KeepsMarks.removeAll (s : Service) (js : String) :
    KeepsMarks s.handlers (s.removeAll js).handlers := by
  refine .of_get? fun k hd hk => ?_
  rw [Service.removeAll, Dict.get?_filter] at hk
  exact (Option.filter_eq_some_iff.mp hk).1

theorem Once.handle (h : Once s) {e : Event} (he : own (.event e) = true) (hfree : s.free = true)
    (hs : s.svc.handle e = some svc) : Once { s with svc } := by
  obtain ⟨hmain, hduty⟩ : s.svc.main = .idle ∧ s.duty.scope = none := by
    simp only [State.free, decide_eq_true_eq] at hfree
    refine ⟨hfree.1, ?_⟩
    rcases hd : s.duty with _ | _ | _ <;> simp_all [Duty.scope]
  have key : ∀ t : Service, t.store = s.svc.store → KeepsMarks s.svc.handlers t.handlers →
      t.nextId = s.svc.nextId → t.main.item? = none → t.enqueued = s.svc.enqueued →
      (∀ e ∈ t.main.todo, s.store.job? e.1.1 e.2.jobKey = some e.2) → Once { s with svc := t } :=
    fun t hst hh hn hm he ht => h.congr hst hh hn
      (by rw [finals_congr (by rw [hm, hmain]; rfl) he]) (fun e he => .inr (ht e he))
      fun hd => absurd hduty hd
  have quiet : ∀ t : Service, t.store = s.svc.store → KeepsMarks s.svc.handlers t.handlers →
      t.nextId = s.svc.nextId → t.main = s.svc.main → t.enqueued = s.svc.enqueued →
      Once { s with svc := t } := fun t hst hh hn hm he =>
    key t hst hh hn (by rw [hm, hmain]; rfl) he fun e he => by rw [hm, hmain] at he; cases he
  cases e with
  | addHandler js name startStates endStates =>
    cases hs
    exact h.addHandler js name startStates endStates
  | removeHandler js name =>
    cases hs
    refine quiet _ rfl (.of_get? fun k hd hk => ?_) rfl rfl rfl
    rw [Service.removeHandler, Dict.get?_erase] at hk
    exact (Option.ite_none_left_eq_some.mp hk).2
  | removeAll js =>
    cases hs
    exact quiet _ rfl (KeepsMarks.removeAll s.svc js) rfl rfl rfl
  | rearm => cases he
  | tick js fault =>
    cases hs
    rw [Service.tick]
    split
    · exact h
    · split
      case h_1 => exact quiet _ rfl (KeepsMarks.removeAll s.svc js) rfl rfl rfl
      case h_2 recs hrecs =>
        refine key _ rfl (.refl _) rfl rfl rfl fun e he => ?_
        obtain ⟨⟨k, hd⟩, hk, hmem⟩ := List.mem_flatMap.mp he
        obtain ⟨rec, hrec, rfl⟩ := List.mem_map.mp hmem
        obtain rfl : k.1 = js := by simpa using (List.mem_filter.mp hk).2
        exact job?_of_mem_getJobs h.represented.placed hrecs hrec
  | recheck fault =>
    simp only [Service.handle, Service.onRecheck] at hs
    split at hs
    · cases hs
    case h_2 js name jobKey _ _ =>
      split at hs
      case h_1 _ rec _ hrec =>
        split at hs
        · cases hs
          refine key _ rfl (.refl _) rfl rfl rfl fun e he => ?_
          obtain rfl := List.mem_singleton.mp he
          have hjob := job?_of_getJob hrec
          rwa [← (h.represented.placed.own _ _ _ hjob).2] at hjob
        · cases hs
          exact quiet _ rfl (.refl _) rfl rfl rfl
      · cases hs
        exact quiet _ rfl (.refl _) rfl rfl rfl
  | shutdown =>
    cases hs
    exact key _ rfl (.of_get? fun k hd hk => by cases hk) rfl rfl rfl fun e he => by cases he

theorem Once.service (h : Once s) {a : Handlers.Act} (ho : own a = true)
    (hfree : isEvent a = true → s.free = true)
    (hc : ∀ k rec todo, a = .main → s.svc.main = .evaluating ((k, rec) :: todo) →
      s.svc.startsFinal k rec = true → s.underWay rec = false)
    (hs : Handlers.step s.svc a = some svc) : Once { s with svc } := by
  cases a with
  | event e =>
    rw [Handlers.step] at hs
    split at hs
    · exact h.handle ho (hfree rfl) hs
    · cases hs
  | main => exact h.mainStep (fun k rec todo hm => hc k rec todo rfl hm) hs
  | worker w out emits => exact h.workerStep hs
  | write op => cases ho

end Own

/-! ## Executions start and end -/

section Executions

variable {s s' : State}

/-- **A write to the store**: it stays in the executions it finds, or starts new ones. -/
theorem Once.write (h : Once s) {store : InMemoryStore} {gens : List ℕ} (hr : store.Represented)
    (hk : InMemoryStore.KeepsGenerations gens s.store store) (hnew : ∀ g ∈ gens, g ∉ s.drawn) :
    Once { s.setStore store with drawn := gens ++ s.drawn } where
  represented := hr
  drawn_store js k r hj := by
    obtain ⟨old, hold, hg⟩ | hin := hk js k r hj
    · exact List.mem_append_right _ (hg ▸ h.drawn_store js k old hold)
    · exact List.mem_append_left _ hin
  drawn_todo e he := List.mem_append_right _ (h.drawn_todo e he)
  drawn_final i hi := List.mem_append_right _ (h.drawn_final i hi)
  ids := h.ids
  ids_final := h.ids_final
  distinct := h.distinct
  once := h.once
  marked i hi k hd rec hkd hid hvis hkey hgen := by
    rcases hvis with hvis | hvis
    · obtain ⟨old, hold, hg⟩ | hin := hk _ _ _ hvis
      · have hkey' : old.jobKey = rec.jobKey := (h.represented.placed.own _ _ _ hold).2
        rw [← hkey'] at hkey hold ⊢
        exact h.marked i hi k hd old hkd hid (.inl hold) hkey (hg.trans hgen)
      · exact absurd (h.drawn_final i hi) (hgen ▸ hnew _ hin)
    · exact h.marked i hi k hd rec hkd hid (.inr hvis) hkey hgen
  tokens_launch := h.tokens_launch
  tokens_note := h.tokens_note
  settled := h.settled
  busy := h.busy
  edited := h.edited
  due js keys hscope k hmem rec hrec i hi := by
    obtain ⟨old, hold, hg⟩ | hin := hk js k rec hrec
    · exact hg ▸ h.due js keys hscope k hmem old hold i hi
    · exact fun heq => hnew _ hin (heq ▸ h.drawn_final i hi)

/-- Records only go. -/
theorem Once.remove (h : Once s) {store : InMemoryStore} (hr : store.Represented)
    (hsub : ∀ js k r, store.job? js k = some r → s.store.job? js k = some r) :
    Once (s.setStore store) := by
  have hk : InMemoryStore.KeepsGenerations [] s.store store := fun js k r hj =>
    .inl ⟨r, hsub js k r hj, rfl⟩
  exact h.write hr hk fun g hg => by cases hg

/-- The main thread takes up a duty that concerns no execution with a last run. -/
theorem Once.setDuty (h : Once s) {duty : Duty} (hidle : s.svc.main = .idle)
    (hown : ∀ js now todo changed, duty = .editing js now todo changed → ∀ p ∈ todo,
      p.1.jobsetId = js)
    (hdue : ∀ js keys, duty.scope = some (js, keys) → ∀ k, (∀ ks, keys = some ks → k ∈ ks) →
      ∀ rec, s.store.job? js k = some rec → ∀ i ∈ s.svc.finals,
        i.record.generation ≠ rec.generation) : Once { s with duty } :=
  { h with
    busy := fun _ => hidle
    edited := hown
    due := hdue }

/-- The launches, the signals and the staged tokens change so that nothing more is under way. -/
theorem Once.setArms (h : Once s) {arms : Dict String ℕ} {tokens : ℕ} {launches : List Launch}
    {notes : List Note} (hl : ∀ l ∈ launches, l.token < tokens)
    (hn : ∀ js token records, Note.recordsReset js token records ∈ notes → token < tokens)
    (hway : ∀ i ∈ s.svc.finals, ({ s with arms, tokens, launches, notes } : State).underWay i.record
      = false) : Once { s with arms, tokens, launches, notes } :=
  { h with
    tokens_launch := hl
    tokens_note := hn
    settled := hway }

theorem underWay_eq_false {rec : JobRecord} : s.underWay rec = false ↔
    (∀ l ∈ s.launches, s.arms.get? l.jobsetId = some l.token →
      ∀ r ∈ l.reset, r.generation ≠ rec.generation) ∧
    ∀ js token records, Note.recordsReset js token records ∈ s.notes →
      s.arms.get? js = some token → ∀ r ∈ records, r.generation ≠ rec.generation := by
  rw [State.underWay, Bool.or_eq_false_iff, List.any_eq_false, List.any_eq_false]
  refine and_congr (forall₂_congr fun l _ => by simp)
    ⟨fun h js token records hn => ?_, fun h n hn => ?_⟩
  · simpa using h _ hn
  · cases n with
    | recordsReset js token records => simpa using h js token records hn
    | gateRejected => exact Bool.false_ne_true

theorem Once.submit (h : Once s) (js : String) : Once (s.submit js) := by
  refine h.setArms ?_
    (fun js token records hn => Nat.lt_succ_of_lt (h.tokens_note js token records hn))
    fun i hi => ?_
  · simp only [List.mem_append, List.mem_singleton]
    rintro l (hl | rfl)
    · exact Nat.lt_succ_of_lt (h.tokens_launch l hl)
    · exact Nat.lt_succ_self _
  · obtain ⟨hl, hn⟩ := underWay_eq_false.mp (h.settled i hi)
    -- no cycle before this one has the token that is staged now
    have hstaged : ∀ js' token, token < s.tokens → (s.arms.set js s.tokens).get? js' = some token →
        s.arms.get? js' = some token := by
      intro js' token hlt heq
      rw [Dict.get?_set] at heq
      split at heq
      · exact absurd (Option.some.inj heq) hlt.ne'
      · exact heq
    refine underWay_eq_false.mpr ⟨fun l hmem harm => ?_, fun js' token records hmem harm => ?_⟩
    · simp only [List.mem_append, List.mem_singleton] at hmem
      rcases hmem with hmem | rfl
      · exact hl l hmem (hstaged _ _ (h.tokens_launch l hmem) harm)
      · exact fun r hr => by cases hr
    · exact hn js' token records hmem (hstaged _ _ (h.tokens_note _ _ _ hmem) harm)

/-- What a store transition returns is what it wrote, at its key. -/
theorem reset_ok {st store : InMemoryStore} {now : Time} {js k command : String} {g : ℕ}
    {rec : JobRecord} (hp : st.Placed)
    (h : st.transition now js k (some .submitting) none (Submit.resetFields g command)
      = .ok (some rec, store)) : rec.generation = g := by
  obtain ⟨hnone, -⟩ | ⟨old, new, hout, -, hnew, -⟩ := InMemoryStore.transition_ok hp h
  · cases hnone
  · obtain rfl := Option.some.inj hout
    subst hnew
    rfl

theorem Once.reset (h : Once s) {i : ℕ} {now : Time} {jobKey : String} {g : ℕ} {command : String}
    (hs : s.reset i now jobKey g command = some s') : Once s' := by
  rw [State.reset] at hs
  split at hs
  · cases hs
  case h_2 l hl =>
    split at hs
    · cases hs
    case isFalse hg =>
      split at hs
      case h_1 rec store htr =>
        cases hs
        have hp := h.represented.placed
        have hgen := reset_ok hp htr
        have hnew : ∀ g' ∈ [g], g' ∉ s.drawn := by simpa using hg
        have hkeep : InMemoryStore.KeepsGenerations [g] s.store store :=
          InMemoryStore.keepsGenerations_transition hp htr
        have hrep : store.Represented := h.represented.transition htr
        have hmem : l ∈ s.launches := List.mem_of_getElem? hl
        have hset : ∀ x ∈ s.launches.set i { l with reset := l.reset ++ [rec] },
            x ∈ s.launches ∨ x = { l with reset := l.reset ++ [rec] } :=
          fun x hx => List.mem_or_eq_of_mem_set hx
        refine (h.write hrep hkeep hnew).setArms ?_ h.tokens_note fun j hj => ?_
        · intro x hx
          rcases hset x hx with hx | rfl
          · exact h.tokens_launch x hx
          · exact h.tokens_launch l hmem
        · obtain ⟨hlaunch, hnote⟩ := underWay_eq_false.mp (h.settled j hj)
          refine underWay_eq_false.mpr ⟨fun x hx harm => ?_, hnote⟩
          rcases hset x hx with hx | rfl
          · exact hlaunch x hx harm
          · intro r hr
            rcases List.mem_append.mp hr with hr | hr
            · exact hlaunch l hmem harm r hr
            · obtain rfl := List.mem_singleton.mp hr
              exact fun heq => hg (hgen ▸ heq ▸ h.drawn_final j hj)
      case h_2 => exact Option.some.inj hs ▸ h

theorem Once.send (h : Once s) {i : ℕ} {armed : Bool}
    (hs : s.send i armed = some s') : Once s' := by
  obtain ⟨l, hl, rfl⟩ := Option.map_eq_some_iff.mp hs
  have hmem : l ∈ s.launches := List.mem_of_getElem? hl
  have hnote : ∀ js token records, Note.recordsReset js token records ∈
      s.notes ++ [if armed then .recordsReset l.jobsetId l.token l.reset
        else .gateRejected l.jobsetId l.token] →
      Note.recordsReset js token records ∈ s.notes ∨
        js = l.jobsetId ∧ token = l.token ∧ records = l.reset := by
    intro js token records hn
    rcases List.mem_append.mp hn with hn | hn
    · exact .inl hn
    · cases armed <;> simp_all
  refine h.setArms (fun x hx => h.tokens_launch x (List.mem_of_mem_eraseIdx hx)) ?_ fun j hj => ?_
  · intro js token records hn
    rcases hnote js token records hn with hn | ⟨-, rfl, -⟩
    · exact h.tokens_note js token records hn
    · exact h.tokens_launch l hmem
  · obtain ⟨hlaunch, hold⟩ := underWay_eq_false.mp (h.settled j hj)
    refine underWay_eq_false.mpr ⟨fun x hx => hlaunch x (List.mem_of_mem_eraseIdx hx),
      fun js token records hn harm => ?_⟩
    rcases hnote js token records hn with hn | ⟨rfl, rfl, rfl⟩
    · exact hold js token records hn harm
    · exact hlaunch l hmem harm

theorem free_iff : s.free = true ↔ s.svc.main = .idle ∧ s.duty.scope = none := by
  rw [State.free, decide_eq_true_eq]
  refine and_congr_right fun _ => ?_
  cases s.duty <;> simp [Duty.scope]

/-- Whatever is honoured next was under way before. -/
theorem Once.eraseNote (h : Once s) (i : ℕ) : Once { s with notes := s.notes.eraseIdx i } :=
  h.setArms h.tokens_launch
    (fun js token records hn => h.tokens_note js token records (List.mem_of_mem_eraseIdx hn))
    fun j hj => by
      obtain ⟨hl, hn⟩ := underWay_eq_false.mp (h.settled j hj)
      exact underWay_eq_false.mpr ⟨hl, fun js token records hmem =>
        hn js token records (List.mem_of_mem_eraseIdx hmem)⟩

theorem Once.eraseArm (h : Once s) (js : String) : Once { s with arms := s.arms.erase js } := by
  refine h.setArms h.tokens_launch h.tokens_note fun j hj => ?_
  obtain ⟨hl, hn⟩ := underWay_eq_false.mp (h.settled j hj)
  have hstaged : ∀ js' token, (s.arms.erase js).get? js' = some token →
      s.arms.get? js' = some token := fun js' token heq => by
    rw [Dict.get?_erase] at heq
    exact (Option.ite_none_left_eq_some.mp heq).2
  exact underWay_eq_false.mpr ⟨fun l hmem harm => hl l hmem (hstaged _ _ harm),
    fun js' token records hmem harm => hn js' token records hmem (hstaged _ _ harm)⟩

/-- **A signal is honoured**: what it rearms had no last run in its execution, as the signal was
under way until now. -/
theorem Once.receive (h : Once s) {n : Note} {i : ℕ} (hfree : s.free = true)
    (hn : s.notes[i]? = some n) :
    Once ({ s with notes := s.notes.eraseIdx i }.receive n) := by
  obtain ⟨hidle, -⟩ := free_iff.mp hfree
  have herase := h.eraseNote i
  cases n with
  | gateRejected js token =>
    rw [State.receive]
    split
    · exact herase.eraseArm js
    · exact herase
  | recordsReset js token records =>
    rw [State.receive]
    split
    case isFalse => exact herase
    case isTrue harm =>
      dsimp only
      split
      case h_1 => exact herase.eraseArm js
      case h_2 =>
        refine (herase.eraseArm js).setDuty hidle (fun _ _ _ _ heq => by cases heq) ?_
        rintro _ _ hscope k hk rec hrec j hj heq
        obtain ⟨rfl, rfl⟩ := Prod.mk.inj (Option.some.inj hscope)
        obtain ⟨r, hr, rfl⟩ := List.mem_map.mp (hk _ rfl)
        obtain ⟨hmem, cur, hjob, hsame⟩ := Delivery.currentRecords_iff.mp hr
        obtain rfl := Option.some.inj (hjob.symm.trans hrec)
        obtain ⟨-, -, hgen⟩ := JobRecord.sameExecution_iff.mp hsame
        obtain ⟨-, hnote⟩ := underWay_eq_false.mp (h.settled j hj)
        exact hnote js token records (List.mem_of_getElem? hn) harm r hmem (hgen.trans heq.symm)

/-- A removal leaves nothing of what is rearmed after it. -/
theorem Once.removed (h : Once s) (hfree : s.free = true) {js : String}
    {keys : Option (List String)} {store : InMemoryStore} (hr : store.Represented)
    (hsub : ∀ js k r, store.job? js k = some r → s.store.job? js k = some r)
    (hgone : ∀ k, (∀ ks, keys = some ks → k ∈ ks) → store.job? js k = none) :
    Once { s.setStore store with duty := .rearming js keys } := by
  refine (h.remove hr hsub).setDuty (free_iff.mp hfree).1 (fun _ _ _ _ heq => by cases heq) ?_
  rintro _ _ hscope k hk rec hrec
  obtain ⟨rfl, rfl⟩ := Prod.mk.inj (Option.some.inj hscope)
  exact absurd hrec
    (by rw [show (s.setStore store).store = store from rfl, hgone k hk]; exact nofun)

theorem Once.removeJobs (h : Once s) (hfree : s.free = true) (js : String) (jobKeys : List String) :
    Once { s.setStore (s.store.storeDeleteJobs js jobKeys).2 with
      duty := .rearming js (some ((s.store.storeDeleteJobs js jobKeys).1.map (·.jobKey))) } := by
  obtain ⟨hjob, hret⟩ := Delivery.storeDeleteJobs_spec js h.represented.placed jobKeys
  refine h.removed hfree (h.represented.storeDeleteJobs js jobKeys) (fun js' k r hr => ?_)
    fun k hk => ?_
  · rw [hjob] at hr
    exact (Option.ite_none_left_eq_some.mp hr).2
  · rw [hjob, if_pos ⟨rfl, ((hret k).mp (hk _ rfl)).1⟩]

theorem Once.clearJobs (h : Once s) (hfree : s.free = true) (js : String) :
    Once { s.setStore (s.store.storeDeleteJobs js ((s.store.jobs.get? js).getD ∅).keys).2 with
      duty := .rearming js none } := by
  obtain ⟨hjob, -⟩ := Delivery.storeDeleteJobs_spec js h.represented.placed
    ((s.store.jobs.get? js).getD ∅).keys
  refine h.removed hfree (h.represented.storeDeleteJobs js _) (fun js' k r hr => ?_) fun k _ => ?_
  · rw [hjob] at hr
    exact (Option.ite_none_left_eq_some.mp hr).2
  · rw [hjob]
    split
    case isTrue => rfl
    case isFalse hk =>
      rcases hj : s.store.jobs.get? js with _ | jobs
      · simp [InMemoryStore.job?, hj]
      · have : k ∉ jobs.keys := by simpa [hj] using hk
        simpa [InMemoryStore.job?, hj] using Dict.get?_eq_none.mpr this

theorem Once.removeJobset (h : Once s) (hfree : s.free = true) (js : String) :
    Once { s with
      svc := { s.svc with store := s.store.storeDeleteJobset js }.removeAll js
      arms := s.arms.erase js
      duty := .rearming js none } := by
  have hremoved : Once { s.setStore (s.store.storeDeleteJobset js) with
      duty := .rearming js none } := h.removed hfree (h.represented.storeDeleteJobset js)
    (fun js' k r hr => by
      rw [InMemoryStore.job?_storeDeleteJobset] at hr
      exact (Option.ite_none_left_eq_some.mp hr).2)
    fun k _ => by rw [InMemoryStore.job?_storeDeleteJobset, if_pos rfl]
  have hgone : Once { s.setStore (s.store.storeDeleteJobset js) with
      svc := (s.setStore (s.store.storeDeleteJobset js)).svc.removeAll js
      duty := .rearming js none } := hremoved.congr rfl (KeepsMarks.removeAll _ js) rfl (.refl _)
        (fun e he => .inl he)
    fun _ => (free_iff.mp hfree).1
  exact hgone.eraseArm js

theorem editPlan_own {js : String} {records : List JobRecord}
    {policy : Jobset.Policy} {force : Bool}
    {plan : List (JobRecord × Option JobRecord)}
    (hp : s.editPlan js records policy force = some plan) :
    ∀ p ∈ plan, p.1.jobsetId = js := by
  rw [State.editPlan] at hp
  split at hp
  case h_1 hcheck hplan =>
    obtain rfl := Jobset.editPlan_ok hplan
    obtain ⟨-, hp⟩ := Option.ite_none_left_eq_some.mp hp
    obtain rfl := Option.some.inj hp
    intro p hmem
    obtain ⟨rec, hrec, rfl⟩ := List.mem_map.mp hmem
    exact (Jobset.checkRecords_ok hcheck).1 rec hrec
  case h_2 => cases hp

theorem Once.edit (h : Once s) (hfree : s.free = true) {js : String} {now : Time}
    {plan : List (JobRecord × Option JobRecord)} (hown : ∀ p ∈ plan, p.1.jobsetId = js) :
    Once { s with duty := .editing js now plan [] } := by
  refine h.setDuty (free_iff.mp hfree).1 ?_ ?_
  · rintro _ _ _ _ heq
    cases heq
    exact hown
  · rintro _ _ hscope k hk
    obtain ⟨rfl, rfl⟩ := Prod.mk.inj (Option.some.inj hscope)
    exact absurd (hk _ rfl) List.not_mem_nil

/-- A record is written as a new execution, at its own key. -/
theorem editOne_ok {st store : InMemoryStore} (hr : st.Represented) {now : Time}
    {rec out : JobRecord}
    {replaces : Bool}
    (h : (if replaces then st.updateJob now rec else st.storeAddJob now rec) = .ok (out, store)) :
    store.Represented ∧ InMemoryStore.KeepsGenerations [rec.generation] st store ∧
      out.jobKey = rec.jobKey ∧ out.generation = rec.generation ∧
      store.job? rec.jobsetId rec.jobKey = some out := by
  cases replaces with
  | true =>
    rw [if_pos rfl] at h
    obtain ⟨old, hold, rfl, hw⟩ := InMemoryStore.updateJob_ok h
    exact ⟨hr.updateJob h, InMemoryStore.keepsGenerations_updateJob h, rfl, rfl,
      by rw [hw.job?, if_pos ⟨rfl, rfl⟩]⟩
  | false =>
    rw [if_neg Bool.false_ne_true] at h
    obtain ⟨rfl, -, hw⟩ := InMemoryStore.storeAddJob_ok h
    exact ⟨hr.storeAddJob h, InMemoryStore.keepsGenerations_storeAddJob h, rfl, rfl,
      by rw [hw.job?, if_pos ⟨rfl, rfl⟩]⟩

/-- **A rearm** takes the mark from no execution with a last run. -/
theorem Once.rearm (h : Once s) (hidle : s.svc.main = .idle) {js : String}
    {keys : Option (List String)} (hduty : s.duty = .rearming js keys) :
    Once { s with svc := s.svc.rearm js keys, duty := .none } := by
  have hget : ∀ k hd, (s.svc.rearm js keys).handlers.get? k = some hd →
      ∃ hd₀, s.svc.handlers.get? k = some hd₀ ∧ hd₀.id = hd.id ∧
        ∀ jobKey, (k.1 = js → ∃ ks, keys = some ks ∧ jobKey ∉ ks) →
          hd₀.statusOf jobKey = .finished → hd.statusOf jobKey = .finished := by
    intro k hd hk
    rw [Service.rearm, Dict.get?_mapValues] at hk
    obtain ⟨hd₀, hk₀, rfl⟩ := Option.map_eq_some_iff.mp hk
    refine ⟨hd₀, hk₀, ?_, fun jobKey hkey hf => ?_⟩
    · split
      · cases keys <;> rfl
      · rfl
    · split
      case isTrue hjs =>
        obtain ⟨ks, rfl, hnot⟩ := hkey hjs
        rw [Handler.rearm, Handler.statusOf, Dict.get?_foldl_erase, if_neg hnot]
        exact hf
      case isFalse => exact hf
  have htodo : s.svc.main.todo = [] := by rw [hidle]; rfl
  refine
    { h with
      ids := fun k hd hk => ?_
      distinct := fun k k' hd hd' hk hk' heq => ?_
      marked := fun i hi k hd rec hk heq hvis hkey hgen => ?_
      busy := fun hne => absurd rfl hne
      edited := fun _ _ _ _ heq => by cases heq
      due := fun _ _ hscope => by cases hscope }
  · obtain ⟨hd₀, hk₀, hid, -⟩ := hget k hd hk
    exact hid ▸ h.ids k hd₀ hk₀
  · obtain ⟨hd₀, hk₀, hid, -⟩ := hget k hd hk
    obtain ⟨hd₀', hk₀', hid', -⟩ := hget k' hd' hk'
    exact h.distinct k k' hd₀ hd₀' hk₀ hk₀' (by rw [hid, hid', heq])
  · obtain ⟨hd₀, hk₀, hid, hmark⟩ := hget k hd hk
    have hjob : s.store.job? k.1 rec.jobKey = some rec := by
      rcases hvis with hvis | hvis
      · exact hvis
      · rw [show (s.svc.rearm js keys).main = s.svc.main from rfl, htodo] at hvis
        cases hvis
    refine hmark _ (fun hjs => ?_)
      (h.marked i hi k hd₀ rec hk₀ (hid.trans heq) (.inl hjob) hkey hgen)
    by_contra hall
    push Not at hall
    exact h.due js keys (by rw [hduty]; rfl) rec.jobKey hall rec (hjs ▸ hjob) i hi hgen.symm

theorem Once.finishDuty (h : Once s) (hidle : s.svc.main = .idle) (hs : s.finishDuty = some s') :
    Once s' := by
  rw [State.finishDuty] at hs
  split at hs
  · cases hs
  case h_2 js now changed hduty =>
    obtain rfl := Option.some.inj hs
    refine h.setDuty hidle (fun _ _ _ _ heq => by split at heq <;> cases heq) ?_
    intro js' keys hscope
    split at hscope
    · cases hscope
    · exact h.due js' keys (by rw [hduty]; exact hscope)
  case h_3 js now rec old todo changed hduty =>
    split at hs
    · cases hs
    case isFalse hg =>
      have hown := h.edited js now _ changed hduty
      obtain ⟨hrec, htodo⟩ := List.forall_mem_cons.mp hown
      split at hs
      · obtain rfl := Option.some.inj hs
        exact h.setDuty hidle (fun _ _ _ _ heq => by cases heq) (fun _ _ heq => by cases heq)
      case h_2 out store heq =>
        obtain rfl := Option.some.inj hs
        obtain ⟨hrep, hkeep, hkey, hgen, hjob⟩ := editOne_ok h.represented heq
        refine (h.write hrep hkeep (by simpa using hg)).setDuty hidle ?_ ?_
        · rintro _ _ _ _ heq
          cases heq
          exact htodo
        · rintro _ _ hscope k hk cur hcur j hj
          obtain ⟨rfl, rfl⟩ := Prod.mk.inj (Option.some.inj hscope)
          rcases List.mem_append.mp (hk _ rfl) with hk | hk
          · exact (h.write hrep hkeep (by simpa using hg)).due js (some changed)
              (by change s.duty.scope = _; rw [hduty]; rfl) k
              (fun ks hks => Option.some.inj hks ▸ hk) cur hcur j hj
          · obtain rfl := List.mem_singleton.mp hk
            have hcur' : store.job? js out.jobKey = some cur := hcur
            rw [hkey, ← hrec, hjob] at hcur'
            obtain rfl := Option.some.inj hcur'
            exact fun heq' => hg (hgen ▸ heq' ▸ h.drawn_final j hj)
  case h_4 js keys hduty =>
    obtain rfl := Option.some.inj hs
    exact h.rearm hidle hduty

theorem Once.step {a : Act} (h : Once s) (hc : InTime s a) (hs : Rearm.step s a = some s') :
    Once s' := by
  cases a with
  | service a =>
    obtain ⟨⟨ho, hfree⟩, hs⟩ := Option.ite_none_right_eq_some.mp hs
    obtain ⟨svc, hsvc, rfl⟩ := Option.map_eq_some_iff.mp hs
    exact h.service ho hfree (fun k rec todo ha => hc k rec todo (by rw [ha])) hsvc
  | write op =>
    obtain ⟨⟨hrem, -, hnew⟩, hs⟩ := Option.ite_none_right_eq_some.mp hs
    obtain rfl := Option.some.inj hs
    exact h.write (h.represented.perform op)
      (InMemoryStore.keepsGenerations_perform h.represented hrem) hnew
  | submit js =>
    obtain ⟨-, hs⟩ := Option.ite_none_right_eq_some.mp hs
    exact Option.some.inj hs ▸ h.submit js
  | reset => exact h.reset hs
  | send => exact h.send hs
  | receive i =>
    obtain ⟨hfree, hs⟩ := Option.ite_none_right_eq_some.mp hs
    obtain ⟨n, hn, rfl⟩ := Option.map_eq_some_iff.mp hs
    exact h.receive hfree hn
  | edit js now records policy force =>
    obtain ⟨hfree, hs⟩ := Option.ite_none_right_eq_some.mp hs
    split at hs
    · exact Option.some.inj hs ▸ h
    case h_2 hplan => exact Option.some.inj hs ▸ h.edit hfree (editPlan_own hplan)
  | removeJobs js jobKeys =>
    obtain ⟨hfree, hs⟩ := Option.ite_none_right_eq_some.mp hs
    exact Option.some.inj hs ▸ h.removeJobs hfree js jobKeys
  | clearJobs js =>
    obtain ⟨hfree, hs⟩ := Option.ite_none_right_eq_some.mp hs
    exact Option.some.inj hs ▸ h.clearJobs hfree js
  | removeJobset js =>
    obtain ⟨hfree, hs⟩ := Option.ite_none_right_eq_some.mp hs
    exact Option.some.inj hs ▸ h.removeJobset hfree js
  | duty =>
    obtain ⟨hidle, hs⟩ := Option.ite_none_right_eq_some.mp hs
    exact h.finishDuty hidle hs

end Executions

theorem once_of_reachableUnder {s : State} (h : system.ReachableUnder InTime s) : Once s :=
  h.invariant (fun _ h => h ▸ once_init) fun _ _ _ _ h hc hs => h.step hc hs

/-! ## The service inside -/

/-- The service may come from the one to the other by itself. -/
def Goes (svc svc' : Service) : Prop :=
  Handlers.system.Reachable svc → Handlers.system.Reachable svc'

theorem Goes.refl (svc : Service) : Goes svc svc := id

theorem Goes.one {svc svc' : Service} {a : Handlers.Act} (h : Handlers.step svc a = some svc') :
    Goes svc svc' := fun hr => .step hr trivial h

theorem Goes.write (svc : Service) (op : InMemoryStore.Op) :
    Goes svc { svc with store := (svc.store.perform op).2 } := .one (a := .write op) rfl

theorem Goes.event {svc svc' : Service} {e : Event} (hidle : svc.main = .idle)
    (h : svc.handle e = some svc') : Goes svc svc' :=
  .one (a := .event e) (by rw [Handlers.step, if_pos hidle, h])

theorem Goes.finishDuty {s s' : State} (hidle : s.svc.main = .idle) (hs : s.finishDuty = some s') :
    Goes s.svc s'.svc := by
  rw [State.finishDuty] at hs
  split at hs
  · cases hs
  · exact Option.some.inj hs ▸ .refl _
  case h_3 js now rec old todo changed _ =>
    obtain ⟨-, hs⟩ := Option.ite_none_left_eq_some.mp hs
    split at hs
    · exact Option.some.inj hs ▸ .refl _
    case h_2 out store heq =>
      obtain rfl := Option.some.inj hs
      rcases hold : old.isSome with _ | _
      · rw [hold, if_neg Bool.false_ne_true] at heq
        have := Goes.write s.svc (.addJob now rec)
        rwa [InMemoryStore.perform, show s.svc.store.storeAddJob now rec = _ from heq] at this
      · rw [hold, if_pos rfl] at heq
        have := Goes.write s.svc (.updateJob now rec)
        rwa [InMemoryStore.perform, show s.svc.store.updateJob now rec = _ from heq] at this
  case h_4 js keys _ => exact Option.some.inj hs ▸ .event (e := .rearm js keys) hidle rfl

theorem Goes.reset {s s' : State} {i : ℕ} {now : Time} {jobKey command : String} {g : ℕ}
    (hs : s.reset i now jobKey g command = some s') : Goes s.svc s'.svc := by
  rw [State.reset] at hs
  split at hs
  · cases hs
  case h_2 l _ =>
    obtain ⟨-, hs⟩ := Option.ite_none_left_eq_some.mp hs
    split at hs
    case h_1 rec store htr =>
      obtain rfl := Option.some.inj hs
      have := Goes.write s.svc (.transition now l.jobsetId jobKey (some .submitting) none
        (Submit.resetFields g command))
      rwa [InMemoryStore.perform, show s.svc.store.transition _ _ _ _ _ _ = _ from htr] at this
    case h_2 => exact Option.some.inj hs ▸ .refl _

theorem receive_svc (s : State) (n : Note) : (s.receive n).svc = s.svc := by
  cases n with
  | gateRejected =>
    rw [State.receive]
    split <;> rfl
  | recordsReset =>
    rw [State.receive]
    split
    · dsimp only
      split <;> rfl
    · rfl

/-- **Whatever the main thread and the workers do, the service goes through steps of its own.** -/
theorem goes {s s' : State} {a : Act} (hs : step s a = some s') : Goes s.svc s'.svc := by
  cases a with
  | service a =>
    obtain ⟨-, hs⟩ := Option.ite_none_right_eq_some.mp hs
    obtain ⟨svc, hsvc, rfl⟩ := Option.map_eq_some_iff.mp hs
    exact .one hsvc
  | write op =>
    obtain ⟨-, hs⟩ := Option.ite_none_right_eq_some.mp hs
    exact Option.some.inj hs ▸ .write _ op
  | submit =>
    obtain ⟨-, hs⟩ := Option.ite_none_right_eq_some.mp hs
    exact Option.some.inj hs ▸ .refl _
  | reset => exact .reset hs
  | send =>
    obtain ⟨l, -, rfl⟩ := Option.map_eq_some_iff.mp hs
    exact .refl _
  | receive =>
    obtain ⟨-, hs⟩ := Option.ite_none_right_eq_some.mp hs
    obtain ⟨n, -, rfl⟩ := Option.map_eq_some_iff.mp hs
    rw [receive_svc]
    exact .refl _
  | edit =>
    obtain ⟨-, hs⟩ := Option.ite_none_right_eq_some.mp hs
    split at hs <;> exact Option.some.inj hs ▸ .refl _
  | removeJobs js jobKeys =>
    obtain ⟨-, hs⟩ := Option.ite_none_right_eq_some.mp hs
    exact Option.some.inj hs ▸ .write _ (.deleteJobs js jobKeys)
  | clearJobs js =>
    obtain ⟨-, hs⟩ := Option.ite_none_right_eq_some.mp hs
    exact Option.some.inj hs ▸ .write _ (.deleteJobs js _)
  | removeJobset js =>
    obtain ⟨hfree, hs⟩ := Option.ite_none_right_eq_some.mp hs
    obtain rfl := Option.some.inj hs
    have hidle : s.svc.main = .idle := (free_iff.mp hfree).1
    exact fun hr => .step (a := .event (.removeAll js)) (Goes.write s.svc (.deleteJobset js) hr)
      trivial (if_pos hidle)
  | duty =>
    obtain ⟨hidle, hs⟩ := Option.ite_none_right_eq_some.mp hs
    exact .finishDuty hidle hs

/-- **The service inside is the service**: what holds of it in every reachable state holds here. -/
theorem reachable_svc {s : State} (h : system.Reachable s) : Handlers.system.Reachable s.svc :=
  h.invariant (I := fun s => Handlers.system.Reachable s.svc)
    (fun _ h => by rw [h]; exact .init rfl) fun _ _ _ _ ih _ hs => goes hs ih

/-! ## At most one last run -/

/-- **At most one last run** for each registration, job and execution, in every run in which no last
run starts for an execution whose `records_reset` is under way. -/
theorem finalOnce {s : State} (h : system.ReachableUnder InTime s) : FinalOnce s.svc := by
  have honce := once_of_reachableUnder h
  have hledger := queued_of_reachable (reachable_svc h.reachable)
  have hle : ((s.svc.started.filter (·.final) : List Item) : Multiset Item) ≤ s.svc.finals := by
    have hstarted : (s.svc.started : Multiset Item) ≤ s.svc.enqueued := by
      rw [hledger, add_right_comm]
      exact Multiset.le_add_left _ _
    refine (Multiset.coe_le.mpr ?_ : ((s.svc.started.filter (·.final) : List Item) : Multiset Item)
      ≤ (s.svc.enqueued.filter (·.final) : List Item)).trans ?_
    · exact (Multiset.coe_le.mp hstarted).filter _
    · rw [Service.finals, List.filter_append, ← Multiset.coe_add]
      exact Multiset.le_add_left _ _
  have hnodup : ((s.svc.finals : Multiset Item).map Item.runKey).Nodup := by
    rw [Multiset.map_coe, Multiset.coe_nodup]
    exact honce.once
  have := Multiset.nodup_of_le (Multiset.map_le_map hle) hnodup
  rwa [Multiset.map_coe, Multiset.coe_nodup] at this

/-- `InTime`, as a test. -/
def inTime (s : State) (a : Act) : Bool :=
  match a, s.svc.main with
  | .service .main, .evaluating ((k, rec) :: _) => !s.svc.startsFinal k rec || !s.underWay rec
  | _, _ => true

theorem inTime_sound {s : State} {a : Act} (h : inTime s a = true) : InTime s a := by
  rintro k rec todo rfl hm hstarts
  simpa [inTime, hm, hstarts] using h

/-- A poll that finds a job at its end: the tick, the last run, and its end. -/
def lastRun : List Act :=
  [.service (.event (.tick "js" false)),
    .service .main, .service .main, .service .main, .service .main, .service .main, .service .main,
    .service (.worker 0 (.ok "data") true), .service (.worker 0 (.ok "data") true),
    .service (.worker 0 (.ok "data") true), .service (.worker 0 (.ok "data") true),
    .service (.worker 0 (.ok "data") true), .service (.worker 0 (.ok "data") true)]

/-- A job with a handler, of which nothing has been submitted. -/
def created : List Act :=
  [.write (.insertJobset 0 { jobsetId := "js", intendedCount := 1 }),
    .write (.addJob 0 { jobsetId := "js", jobKey := "a", generation := 0 }),
    .service (.event (.addHandler "js" "collect" .none .none))]

/-- A job is submitted twice; each time `records_reset` arrives before the end of the job is
seen. -/
def resubmitted : List Act :=
  created ++
    [.submit "js", .reset 0 1 "a" 1 "run.sh", .send 0 true, .receive 0, .duty,
      .write (.transition 2 "js" "a" (some .done) none [])] ++ lastRun ++
    [.submit "js", .reset 0 3 "a" 2 "run.sh", .send 0 true, .receive 0, .duty,
      .write (.transition 4 "js" "a" (some .exit) none [])] ++ lastRun

theorem finalOnce_resubmitted : ∃ s, system.runUnder inTime {} resubmitted = some s ∧
    s.svc.started.map Item.runKey = [(0, "a", 1), (0, "a", 2)] ∧ FinalOnce s.svc := by
  have hrun : (system.runUnder inTime {} resubmitted).bind (fun s =>
      if s.svc.started.map Item.runKey = [(0, "a", 1), (0, "a", 2)] then some () else none)
        = some () := by decide +kernel
  obtain ⟨s, hs, hrest⟩ := Option.bind_eq_some_iff.mp hrun
  obtain ⟨hkeys, -⟩ := Option.ite_none_right_eq_some.mp hrest
  exact ⟨s, hs, hkeys, finalOnce
    (System.reachableUnder_of_runUnder (fun _ _ => inTime_sound) (.init rfl) hs)⟩

/-! ## The late rearm -/

/-- The main thread is held up while a job is reset and runs to its end; then it handles, in the
order of their arrival, an older poll result, `records_reset` and the poll result that reports the
end. -/
def lateRearm : List Act :=
  created ++
    [.submit "js", .reset 0 1 "a" 1 "run.sh", .send 0 true,
      .write (.transition 2 "js" "a" (some .pend) none [.jobId (some 7)]),
      .write (.transition 3 "js" "a" (some .done) none [])] ++ lastRun ++
    [.receive 0, .duty] ++ lastRun

/-- The handler has two last runs for the one execution of the job. -/
theorem not_finalOnce_lateRearm : ¬ ∀ s, system.Reachable s → FinalOnce s.svc := by
  intro h
  have hrun : (system.run {} lateRearm).bind (fun s =>
      if FinalOnce s.svc then none else some ()) = some () := by decide +kernel
  obtain ⟨s, hs, hrest⟩ := Option.bind_eq_some_iff.mp hrun
  exact (Option.ite_none_left_eq_some.mp hrest).1
    (h s (System.reachable_of_run (.init rfl) hs))

end Rearm

end Handlers

end Lsfmgr
