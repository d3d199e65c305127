import Mathlib
import Lsfmgr.Machinery.History
import Lsfmgr.Completion.Machine

/-!
# Completion/Once — a callback and a notice for each completion, and not two

The history justifies itself: each event in it stands behind the events that allow it.  A callback
is started once, with records that were read between the start of its own cycle and the next
submission; two notices for a jobset have between them a start, or a reading in which the jobset was
not done.
-/

namespace Lsfmgr.Completion

open Machinery

variable {φ : Type}

/-! ## What justifies an event -/

namespace Event

/-- The armed callback of the jobset is disarmed, or armed for another cycle. -/
def Disarms (jobsetId : String) : Event φ → Prop
  | .staged js _ _ => js = jobsetId
  | .taken js _ _ => js = jobsetId
  | .forgotten js => js = jobsetId
  | _ => False

/-- The latch of the jobset is set. -/
def Latches (jobsetId : String) : Event φ → Prop
  | .finished js _ _ => js = jobsetId
  | .killed js => js = jobsetId
  | _ => False

/-- The latch of the jobset is released. -/
def Releases (jobsetId : String) : Event φ → Prop
  | .confirmed js _ => js = jobsetId
  | .forgotten js => js = jobsetId
  | .reopened js => js = jobsetId
  | _ => False

/-- No callback is concerned, and no kill is accepted. -/
def Quiet : Event φ → Prop
  | .staged .. | .confirmed .. | .taken .. | .launched .. | .killAccepted .. => False
  | _ => True

end Event

/-- The cycle of the callback has started after it was staged, and nothing has disarmed it since. -/
def ArmedBy (log : List (Event φ)) (jobsetId : String) (armed : Armed φ) : Prop :=
  ∃ before after, log = before ++ .confirmed jobsetId armed.token :: after ∧
    .staged jobsetId armed.token (some armed.fn) ∈ before ∧ ∀ e ∈ after, ¬ e.Disarms jobsetId

/-- The kills that were accepted for the jobset, or without one for its jobs, are delivered. -/
def Delivered (log : List (Event φ)) (jobsetId : String) (records : List JobRecord) : Prop :=
  ∀ a, (.killAccepted jobsetId a ∈ log → .killDelivered jobsetId a.slot ∈ log) ∧
    (a.Touches records → .killAccepted "" a ∈ log → .killDelivered "" a.slot ∈ log)

def Justified (before : List (Event φ)) : Event φ → Prop
  | .staged _ token _ => ∀ js fn, .staged js token fn ∉ before
  | .confirmed jobsetId token =>
    (∃ fn, .staged jobsetId token fn ∈ before) ∧ .confirmed jobsetId token ∉ before
  | .taken jobsetId armed records =>
    CompletionTracker.allTerminal records = true ∧ ArmedBy before jobsetId armed ∧
      ∀ a recs, a.token = armed.token → .taken jobsetId a recs ∉ before
  | .launched jobsetId armed records =>
    .taken jobsetId armed records ∈ before ∧
      ∀ a recs, a.token = armed.token → .launched jobsetId a recs ∉ before
  | .finished jobsetId records _ =>
    CompletionTracker.allTerminal records = true ∧ (∃ r ∈ records, r.killed = false) ∧
      ¬ Since (Event.Latches jobsetId) (Event.Releases jobsetId) before ∧
      Delivered before jobsetId records
  | _ => True

theorem ArmedBy.concat {log : List (Event φ)} {jobsetId : String} {armed : Armed φ} {e : Event φ}
    (h : ArmedBy log jobsetId armed) (he : ¬ e.Disarms jobsetId) :
    ArmedBy (log ++ [e]) jobsetId armed := by
  obtain ⟨before, after, rfl, hs, ha⟩ := h
  refine ⟨before, after ++ [e], by simp, hs, fun x hx => ?_⟩
  obtain hx | hx := List.mem_append.mp hx
  · exact ha x hx
  · obtain rfl : x = e := by simpa using hx
    exact he

/-! ## What every run keeps -/

/-- The callback a frame holds. -/
def Frame.armed? : Frame φ → Option (String × Armed φ × List JobRecord)
  | .finished jobsetId armed records => armed.map fun a => (jobsetId, a, records)
  | .started jobsetId armed records => some (jobsetId, armed, records)

/-- Whose callback a frame holds. -/
def Frame.key? (f : Frame φ) : Option (String × ℕ) := f.armed?.map fun a => (a.1, a.2.1.token)

/-- A callback that is taken out, and is not started yet. -/
structure Held (log : List (Event φ)) (jobsetId : String) (armed : Armed φ)
    (records : List JobRecord) : Prop where
  taken : .taken jobsetId armed records ∈ log
  unlaunched : ∀ a recs, a.token = armed.token → .launched jobsetId a recs ∉ log

structure Inv (s : State φ) : Prop where
  sound : Sound Justified s.history
  fresh : ∀ js token fn, .staged js token fn ∈ s.history → token < s.nextToken
  pending : ∀ js ent, s.tracker.pendingArm.get? js = some ent →
    .staged js ent.token ent.postProcess ∈ s.history ∧ .confirmed js ent.token ∉ s.history
  armed : ∀ js a, s.tracker.postProcess.get? js = some a →
    ArmedBy s.history js a ∧ ∀ b recs, b.token = a.token → .taken js b recs ∉ s.history
  held : ∀ f ∈ s.stack, ∀ js a recs, f.armed? = some (js, a, recs) → Held s.history js a recs
  distinct : (s.stack.filterMap Frame.key?).Nodup
  latch : ∀ js, js ∈ s.tracker.finishedLatch ↔
    Since (Event.Latches js) (Event.Releases js) s.history
  kills : ∀ js a, .killAccepted js a ∈ s.history →
    a ∈ s.kills.listAt js ∨ .killDelivered js a.slot ∈ s.history

theorem inv_init : Inv ({} : State φ) := by
  refine ⟨sound_nil, ?_, ?_, ?_, ?_, ?_, fun js => ?_, ?_⟩
  · simp
  · simp
  · simp
  · simp
  · simp
  · simp [not_since_nil]
  · simp

theorem get?_erase_some {ν : Type} {d : Dict String ν} {k k' : String} {v : ν}
    (h : (d.erase k).get? k' = some v) : k' ≠ k ∧ d.get? k' = some v := by
  rw [Dict.get?_erase] at h
  split at h
  case isTrue => cases h
  case isFalse hk => exact ⟨hk, h⟩

/-- A callback that is held by no frame. -/
def Free (s : State φ) (jobsetId : String) (records : List JobRecord)
    (armed : Option (Armed φ)) : Prop :=
  ∀ a, armed = some a →
    Held s.history jobsetId a records ∧ (jobsetId, a.token) ∉ s.stack.filterMap Frame.key?

theorem kills_latchKilled (s : State φ) (jobsetId : String) (records : List JobRecord) :
    (s.latchKilled jobsetId records).kills = s.kills := by
  rw [State.latchKilled]
  split <;> rfl

theorem mem_latchKilled {s : State φ} {jobsetId : String} {records : List JobRecord}
    (h : records.all (·.killed) = true) :
    jobsetId ∈ (s.latchKilled jobsetId records).tracker.finishedLatch := by
  rw [State.latchKilled, if_pos h]
  exact Finset.mem_insert_self _ _

/-- A notice leaves the latch set. -/
theorem mem_notify (s : State φ) (jobsetId : String) (records : List JobRecord)
    (summary : InMemoryStore.Summary) (armed : Option (Armed φ)) :
    jobsetId ∈ (s.notify jobsetId records (some summary) armed).tracker.finishedLatch := by
  by_cases hlatch : jobsetId ∈ s.tracker.finishedLatch
  · simp only [State.notify, if_pos hlatch]
    rcases armed with - | a
    · exact hlatch
    · rw [State.postProcess]
      split <;> exact hlatch
  · simp only [State.notify, if_neg hlatch]
    exact Finset.mem_insert_self _ _

theorem Free.latchKilled {s : State φ} {jobsetId : String} {armed : Option (Armed φ)}
    {records : List JobRecord}
    (h : Free s jobsetId records armed) (recs : List JobRecord) :
    Free (s.latchKilled jobsetId recs) jobsetId records armed := by
  rw [State.latchKilled]
  split
  case isFalse => exact h
  case isTrue =>
    intro a ha
    obtain ⟨⟨ht, hl⟩, hkey⟩ := h a ha
    exact ⟨⟨List.mem_append_left _ ht, fun b recs hb => by simpa using hl b recs hb⟩, hkey⟩

namespace Inv

variable {s : State φ} {jobsetId : String}

/-- An event that is about no callback and accepts no kill, with tables that do not grow. -/
theorem quiet (h : Inv s) {e : Event φ} {tracker : CompletionTracker φ}
    {kills : Dict String (List KillActivity)} (he : e.Quiet) (hj : Justified s.history e)
    (hpending : ∀ js ent, tracker.pendingArm.get? js = some ent →
      s.tracker.pendingArm.get? js = some ent)
    (harmed : ∀ js a, tracker.postProcess.get? js = some a →
      s.tracker.postProcess.get? js = some a ∧ ¬ e.Disarms js)
    (hlatch : ∀ js, js ∈ tracker.finishedLatch ↔
      e.Latches js ∨ ¬ e.Releases js ∧ js ∈ s.tracker.finishedLatch)
    (hkills : ∀ js a, a ∈ s.kills.listAt js → a ∈ kills.listAt js ∨ e = .killDelivered js a.slot) :
    Inv { s with tracker := tracker, kills := kills, history := s.history ++ [e] } := by
  have hmem : ∀ x : Event φ, x ∈ s.history ++ [e] → x ∈ s.history ∨ x = e := by simp
  have hquiet : ∀ x : Event φ, ¬ x.Quiet → x ∈ s.history ++ [e] → x ∈ s.history := by
    intro x hx hm
    obtain hm | rfl := hmem x hm
    · exact hm
    · exact absurd he hx
  refine ⟨sound_concat.mpr ⟨h.sound, hj⟩, fun js token fn hm => ?_, fun js ent hent => ?_,
    fun js a ha => ?_, fun f hf js a recs hk => ?_, h.distinct, fun js => ?_, fun js a hm => ?_⟩
  · exact h.fresh js token fn (hquiet _ (by simp [Event.Quiet]) hm)
  · obtain ⟨hs, hc⟩ := h.pending js ent (hpending js ent hent)
    exact ⟨List.mem_append_left _ hs, fun hm => hc (hquiet _ (by simp [Event.Quiet]) hm)⟩
  · obtain ⟨ha, hd⟩ := harmed js a ha
    obtain ⟨hby, ht⟩ := h.armed js a ha
    exact ⟨hby.concat hd, fun b recs hb hm => ht b recs hb (hquiet _ (by simp [Event.Quiet]) hm)⟩
  · obtain ⟨ht, hl⟩ := h.held f hf js a recs hk
    exact ⟨List.mem_append_left _ ht,
      fun b recs' hb hm => hl b recs' hb (hquiet _ (by simp [Event.Quiet]) hm)⟩
  · rw [since_concat, hlatch, h.latch]
  · obtain ha | hd := h.kills js a (hquiet _ (by simp [Event.Quiet]) hm)
    · obtain ha | rfl := hkills js a ha
      · exact .inl ha
      · exact .inr (by simp)
    · exact .inr (List.mem_append_left _ hd)

theorem stage (h : Inv s) (fn : Option φ) (poll : Option ℚ) :
    Inv (s.step (.stage jobsetId fn poll)) := by
  have hnew : ∀ js fn, .staged js s.nextToken fn ∉ s.history := fun js fn hm =>
    absurd (h.fresh js s.nextToken fn hm) (lt_irrefl _)
  have hunconfirmed : ∀ js, .confirmed js s.nextToken ∉ s.history := by
    intro js hm
    obtain ⟨before, after, hlog, ⟨fn, hs⟩, -⟩ := h.sound.of_mem hm
    exact hnew js fn (hlog ▸ List.mem_append_left _ hs)
  refine ⟨sound_concat.mpr ⟨h.sound, hnew⟩, fun js token fn' hm => ?_, fun js ent hent => ?_,
    fun js a ha => ?_, fun f hf js a recs hk => ?_, h.distinct, fun js => ?_, fun js a hm => ?_⟩
  · obtain hm | heq := List.mem_append.mp hm
    · exact (h.fresh js token fn' hm).trans (Nat.lt_succ_self _)
    · obtain ⟨-, rfl, -⟩ : js = jobsetId ∧ token = s.nextToken ∧ fn' = fn := by simpa using heq
      exact Nat.lt_succ_self _
  · simp only [State.step, CompletionTracker.stage, Dict.get?_set] at hent
    split at hent
    case isTrue hjs =>
      obtain rfl := Option.some.inj hent
      subst hjs
      exact ⟨by simp [State.step], by simp [State.step, hunconfirmed]⟩
    case isFalse =>
      obtain ⟨hs, hc⟩ := h.pending js ent hent
      exact ⟨List.mem_append_left _ hs, by simpa [State.step] using hc⟩
  · simp only [State.step, CompletionTracker.stage, Dict.get?_erase] at ha
    split at ha
    case isTrue => cases ha
    case isFalse hjs =>
      obtain ⟨hby, ht⟩ := h.armed js a ha
      exact ⟨hby.concat (Ne.symm hjs), fun b recs hb => by simpa [State.step] using ht b recs hb⟩
  · obtain ⟨ht, hl⟩ := h.held f hf js a recs hk
    exact ⟨List.mem_append_left _ ht, fun b recs' hb => by simpa [State.step] using hl b recs' hb⟩
  · have hstaged : Since (Event.Latches js) (Event.Releases js) (s.history ++
        [.staged jobsetId s.nextToken fn]) ↔
            Since (Event.Latches js) (Event.Releases js) s.history := by
      simp [since_concat, Event.Latches, Event.Releases]
    exact (h.latch js).trans hstaged.symm
  · have hm : .killAccepted js a ∈ s.history := by simpa [State.step] using hm
    exact (h.kills js a hm).imp_right fun hd => List.mem_append_left _ hd

theorem confirm (h : Inv s) (token : ℕ) : Inv (s.step (.confirm jobsetId token)) := by
  rw [State.step, CompletionTracker.confirm]
  rcases hent : s.tracker.pendingArm.get? jobsetId with - | ent
  · exact h
  by_cases htok : ent.token = token
  case neg => simpa only [if_neg htok] using h
  subst htok
  obtain ⟨hstaged, hunconfirmed⟩ := h.pending jobsetId ent hent
  have huntaken : ∀ b recs, b.token = ent.token → .taken jobsetId b recs ∉ s.history := by
    intro b recs hb hm
    obtain ⟨before, after, hlog, -, ⟨b₁, b₂, rfl, -⟩, -⟩ := h.sound.of_mem hm
    exact hunconfirmed (by simp [hlog, ← hb])
  simp only [if_true]
  refine ⟨sound_concat.mpr ⟨h.sound, ⟨_, hstaged⟩, hunconfirmed⟩, fun js tok fn hm => ?_,
    fun js ent' hent' => ?_, fun js a ha => ?_, fun f hf js a recs hk => ?_, h.distinct,
    fun js => ?_, fun js a hm => ?_⟩
  · exact h.fresh js tok fn (by simpa using hm)
  · rw [Dict.get?_erase] at hent'
    split at hent'
    case isTrue => cases hent'
    case isFalse hjs =>
      obtain ⟨hs, hc⟩ := h.pending js ent' hent'
      exact ⟨List.mem_append_left _ hs, by simp [hc, hjs]⟩
  · have hold : ∀ js a, s.tracker.postProcess.get? js = some a →
        ArmedBy (s.history ++ [.confirmed jobsetId ent.token]) js a ∧ ∀ b recs, b.token = a.token →
          .taken js b recs ∉ s.history ++ [.confirmed jobsetId ent.token] := by
      intro js a ha
      obtain ⟨hby, ht⟩ := h.armed js a ha
      exact ⟨hby.concat (by simp [Event.Disarms]), fun b recs hb => by simpa using ht b recs hb⟩
    rcases hfn : ent.postProcess with - | fn
    · simp only [hfn] at ha
      exact hold js a ha
    · simp only [hfn, Dict.get?_set] at ha
      split at ha
      case isTrue hjs =>
        obtain rfl := Option.some.inj ha
        subst hjs
        exact ⟨⟨s.history, [], rfl, hfn ▸ hstaged, by simp⟩,
          fun b recs hb => by simpa using huntaken b recs hb⟩
      case isFalse => exact hold js a ha
  · obtain ⟨ht, hl⟩ := h.held f hf js a recs hk
    exact ⟨List.mem_append_left _ ht, fun b recs' hb => by simpa using hl b recs' hb⟩
  · rw [since_concat, Finset.mem_erase, h.latch]
    simp [Event.Latches, Event.Releases, eq_comm]
  · exact (h.kills js a (by simpa using hm)).imp_right fun hd => List.mem_append_left _ hd

theorem discard (h : Inv s) (token : ℕ) : Inv (s.step (.discard jobsetId token)) := by
  have hsub : ∀ js ent, (s.tracker.discard jobsetId token).pendingArm.get? js = some ent →
      s.tracker.pendingArm.get? js = some ent := by
    intro js ent hent
    rw [CompletionTracker.discard] at hent
    split at hent
    case h_1 => exact hent
    case h_2 =>
      split at hent
      case isTrue =>
        simp only [Dict.get?_erase] at hent
        split at hent
        · cases hent
        · exact hent
      case isFalse => exact hent
  have hpost : (s.tracker.discard jobsetId token).postProcess = s.tracker.postProcess := by
    rw [CompletionTracker.discard]
    split
    · rfl
    · split <;> rfl
  have hlatch : (s.tracker.discard jobsetId token).finishedLatch = s.tracker.finishedLatch := by
    rw [CompletionTracker.discard]
    split
    · rfl
    · split <;> rfl
  exact ⟨h.sound, h.fresh, fun js ent hent => h.pending js ent (hsub js ent hent),
    fun js a ha => h.armed js a (hpost ▸ ha), h.held, h.distinct,
    fun js => by rw [State.step, hlatch]; exact h.latch js, h.kills⟩

theorem forget (h : Inv s) : Inv (s.step (.forget jobsetId)) := by
  refine h.quiet (e := .forgotten jobsetId) trivial trivial (fun js ent hent => ?_)
    (fun js a ha => ?_)
    (fun js => ?_) fun js a ha => .inl ha
  · exact (get?_erase_some hent).2
  · obtain ⟨hk, ha⟩ := get?_erase_some ha
    exact ⟨ha, Ne.symm hk⟩
  · simp [CompletionTracker.forget, Event.Latches, Event.Releases, eq_comm]

theorem killAccepted (h : Inv s) (jobIds : List ℕ) :
    Inv (s.step (.killAccepted jobsetId jobIds)) := by
  refine ⟨sound_concat.mpr ⟨h.sound, trivial⟩, fun js token fn hm => ?_, fun js ent hent => ?_,
    fun js a ha => ?_, fun f hf js a recs hk => ?_, h.distinct, fun js => ?_, fun js a hm => ?_⟩
  · exact h.fresh js token fn (by simpa [State.step] using hm)
  · obtain ⟨hs, hc⟩ := h.pending js ent hent
    exact ⟨List.mem_append_left _ hs, by simpa [State.step] using hc⟩
  · obtain ⟨hby, ht⟩ := h.armed js a ha
    exact ⟨hby.concat (by simp [Event.Disarms]),
      fun b recs hb => by simpa [State.step] using ht b recs hb⟩
  · obtain ⟨ht, hl⟩ := h.held f hf js a recs hk
    exact ⟨List.mem_append_left _ ht, fun b recs' hb => by simpa [State.step] using hl b recs' hb⟩
  · refine (h.latch js).trans ?_
    simp [State.step, since_concat, Event.Latches, Event.Releases]
  · simp only [State.step, listAt_ledgerAdd]
    obtain hm | heq := List.mem_append.mp hm
    · refine (h.kills js a hm).imp (fun ha => ?_) fun hd => List.mem_append_left _ hd
      split
      case isTrue hjs => exact List.mem_append_left _ (hjs ▸ ha)
      case isFalse => exact ha
    · obtain ⟨rfl, rfl⟩ : js = jobsetId ∧ a = ⟨s.nextSlot, jobIds⟩ := by simpa using heq
      exact .inl (by simp)

theorem killDelivered (h : Inv s) (slot : ℕ) : Inv (s.step (.killDelivered jobsetId slot)) := by
  refine h.quiet (e := .killDelivered jobsetId slot) trivial trivial (fun _ _ hent => hent)
    (fun _ _ ha => ⟨ha, by simp [Event.Disarms]⟩)
      (fun js => by simp [Event.Latches, Event.Releases])
    fun js a ha => ?_
  rw [listAt_ledgerRemove]
  split
  case isFalse => exact .inl ha
  case isTrue hjs =>
    by_cases hslot : a.slot = slot
    · exact .inr (by rw [hjs, hslot])
    · exact .inl ((List.mem_eraseP_of_neg (by simpa using hslot)).mpr (hjs ▸ ha))

/-- What the tracker reads as not done, or as gone, releases the latch. -/
theorem reopen (h : Inv s) : Inv (s.reopen jobsetId) := by
  refine h.quiet (e := .reopened jobsetId) trivial trivial (fun _ _ hent => hent)
    (fun _ _ ha => ⟨ha, by simp [Event.Disarms]⟩) (fun js => ?_) fun _ _ ha => .inl ha
  simp [Event.Latches, Event.Releases, eq_comm]

theorem disarm (h : Inv s) :
    Inv { s with
      tracker := { s.tracker with postProcess := s.tracker.postProcess.erase jobsetId } } :=
  ⟨h.sound, h.fresh, h.pending, fun js a ha => h.armed js a (get?_erase_some ha).2,
    h.held, h.distinct, h.latch, h.kills⟩

theorem latchKilled (h : Inv s) (records : List JobRecord) :
    Inv (s.latchKilled jobsetId records) := by
  rw [State.latchKilled]
  split
  case isFalse => exact h
  case isTrue =>
    refine h.quiet (e := .killed jobsetId) trivial trivial (fun _ _ hent => hent)
      (fun _ _ ha => ⟨ha, by simp [Event.Disarms]⟩) (fun js => ?_) fun _ _ ha => .inl ha
    simp [Event.Latches, Event.Releases, eq_comm]

/-- A callback is taken out where the jobs are done. -/
theorem take (h : Inv s) {records : List JobRecord}
    (hterm : CompletionTracker.allTerminal records = true) :
    Inv (s.take jobsetId records) ∧
      Free (s.take jobsetId records) jobsetId records (s.tracker.postProcess.get? jobsetId) := by
  rw [State.take]
  rcases hget : s.tracker.postProcess.get? jobsetId with - | armed
  · exact ⟨h.disarm, fun a ha => by cases ha⟩
  · obtain ⟨hby, htaken⟩ := h.armed jobsetId armed hget
    have hunlaunched : ∀ b recs, b.token = armed.token → .launched jobsetId b recs ∉ s.history := by
      intro b recs hb hm
      obtain ⟨before, after, hlog, ht, -⟩ := h.sound.of_mem hm
      exact htaken b recs hb (hlog ▸ List.mem_append_left _ ht)
    constructor
    · refine ⟨sound_concat.mpr ⟨h.sound, hterm, hby, htaken⟩, fun js token fn hm => ?_,
        fun js ent hent => ?_, fun js a ha => ?_, fun f hf js a recs hk => ?_, h.distinct,
        fun js => ?_, fun js a hm => ?_⟩
      · exact h.fresh js token fn (by simpa using hm)
      · obtain ⟨hs, hc⟩ := h.pending js ent hent
        exact ⟨List.mem_append_left _ hs, by simpa using hc⟩
      · obtain ⟨hjs, ha⟩ := get?_erase_some ha
        obtain ⟨hby, ht⟩ := h.armed js a ha
        refine ⟨hby.concat (Ne.symm hjs), fun b recs hb hm => ht b recs hb ?_⟩
        simpa [hjs] using hm
      · obtain ⟨ht, hl⟩ := h.held f hf js a recs hk
        exact ⟨List.mem_append_left _ ht, fun b recs' hb => by simpa using hl b recs' hb⟩
      · refine (h.latch js).trans ?_
        simp [since_concat, Event.Latches, Event.Releases]
      · exact (h.kills js a (by simpa using hm)).imp_right fun hd => List.mem_append_left _ hd
    · intro a ha
      obtain rfl := Option.some.inj ha
      refine ⟨⟨by simp, fun b recs hb => by simpa using hunlaunched b recs hb⟩, fun hm => ?_⟩
      obtain ⟨f, hf, hkey⟩ := List.mem_filterMap.mp hm
      rw [Frame.key?, Option.map_eq_some_iff] at hkey
      obtain ⟨⟨js, b, recs⟩, hk, heq⟩ := hkey
      obtain ⟨rfl, hb⟩ : js = jobsetId ∧ b.token = armed.token := by simpa using heq
      exact htaken b recs hb (h.held f hf js b recs hk).taken

/-- A signal is sent. -/
theorem push (h : Inv s) {f : Frame φ} {records : List JobRecord} {armed : Option (Armed φ)}
    (hf : f.armed? = armed.map fun a => (jobsetId, a, records))
    (hfree : Free s jobsetId records armed) :
    Inv { s with stack := f :: s.stack } := by
  refine ⟨h.sound, h.fresh, h.pending, h.armed, fun g hg js a recs hk => ?_, ?_, h.latch, h.kills⟩
  · obtain rfl | hg := List.mem_cons.mp hg
    · rw [hf, Option.map_eq_some_iff] at hk
      obtain ⟨b, rfl, heq⟩ := hk
      obtain ⟨rfl, rfl, rfl⟩ : jobsetId = js ∧ b = a ∧ records = recs := by simpa using heq
      exact (hfree b rfl).1
    · exact h.held g hg js a recs hk
  · rcases armed with - | a
    · have hkey : f.key? = none := by rw [Frame.key?, hf]; rfl
      rw [List.filterMap_cons_none hkey]
      exact h.distinct
    · have hkey : f.key? = some (jobsetId, a.token) := by rw [Frame.key?, hf]; rfl
      rw [List.filterMap_cons_some hkey, List.nodup_cons]
      exact ⟨(hfree a rfl).2, h.distinct⟩

theorem postProcess (h : Inv s) {records : List JobRecord} {armed : Option (Armed φ)}
    (hfree : Free s jobsetId records armed) : Inv (s.postProcess jobsetId records armed) := by
  rcases armed with - | a
  · exact h
  · rw [State.postProcess]
    split
    case isTrue => exact h
    case isFalse => exact h.push rfl hfree

theorem notify (h : Inv s) {records : List JobRecord} {summary : Option InMemoryStore.Summary}
    {armed : Option (Armed φ)} (hterm : CompletionTracker.allTerminal records = true)
    (hkilled : jobsetId ∉ s.tracker.finishedLatch → ∃ r ∈ records, r.killed = false)
    (hdelivered : Delivered s.history jobsetId records) (hfree : Free s jobsetId records armed) :
    Inv (s.notify jobsetId records summary armed) := by
  by_cases hlatch : jobsetId ∈ s.tracker.finishedLatch
  · simp only [State.notify, if_pos hlatch]
    exact h.postProcess hfree
  · simp only [State.notify, if_neg hlatch]
    rcases summary with - | summary
    · exact h
    · have hs : Inv { s with
          tracker := { s.tracker with finishedLatch := insert jobsetId s.tracker.finishedLatch }
          history := s.history ++ [.finished jobsetId records summary] } := by
        refine h.quiet (e := .finished jobsetId records summary) trivial
          ⟨hterm, hkilled hlatch, fun hs => hlatch ((h.latch jobsetId).mpr hs), hdelivered⟩
          (fun _ _ hent => hent) (fun _ _ ha => ⟨ha, by simp [Event.Disarms]⟩) (fun js => ?_)
          fun _ _ ha => .inl ha
        simp [Event.Latches, Event.Releases, eq_comm]
      refine hs.push (f := .finished jobsetId armed records) rfl fun a ha => ?_
      obtain ⟨⟨ht, hl⟩, hkey⟩ := hfree a ha
      exact ⟨⟨List.mem_append_left _ ht, fun b recs hb => by simpa using hl b recs hb⟩, hkey⟩

theorem delivered (h : Inv s) {records : List JobRecord}
    (hb : blocksCompletion s.kills jobsetId records = false) :
    Delivered s.history jobsetId records := by
  obtain ⟨hown, hglobal⟩ := blocksCompletion_eq_false hb
  refine fun a => ⟨fun hm => (h.kills jobsetId a hm).resolve_left (by simp [hown]), fun ht hm => ?_⟩
  exact (h.kills "" a hm).resolve_left fun ha => hglobal a ha ht

theorem maybeFinish (h : Inv s) (view : View) : Inv (s.maybeFinish jobsetId view) := by
  rw [State.maybeFinish]
  split
  case isTrue => exact h
  split
  case isTrue => exact h
  rcases view.records with - | records
  · exact h.disarm.reopen
  · simp only
    split
    case isFalse => exact h.reopen
    case isTrue hterm =>
      split
      case isTrue => exact h
      case isFalse hblocked =>
        obtain ⟨htaken, hfree⟩ :
            Inv (s.take jobsetId records) ∧ Free (s.take jobsetId records) jobsetId records _ :=
          h.take hterm
        have hlatched : Inv ((s.take jobsetId records).latchKilled jobsetId records) :=
          htaken.latchKilled records
        refine hlatched.notify hterm (fun hn => ?_) (hlatched.delivered ?_)
          (hfree.latchKilled records)
        · by_contra hall
          push Not at hall
          exact hn (mem_latchKilled (List.all_eq_true.mpr fun r hr => by simpa using hall r hr))
        · rw [kills_latchKilled]
          exact (Bool.not_eq_true _).mp hblocked

/-- The slots of the innermost signal have returned. -/
theorem pop (h : Inv s) {f : Frame φ} {stack : List (Frame φ)} (hs : s.stack = f :: stack) :
    Inv { s with stack := stack } ∧ ∀ js a recs, f.armed? = some (js, a, recs) →
      Free { s with stack := stack } js recs (some a) := by
  have hd := h.distinct
  refine ⟨⟨h.sound, h.fresh, h.pending, h.armed, fun g hg =>
    h.held g (hs ▸ List.mem_cons_of_mem f hg), ?_, h.latch, h.kills⟩, fun js a recs hf b hb => ?_⟩
  · refine hd.sublist ?_
    rw [hs]
    exact (List.sublist_cons_self f stack).filterMap Frame.key?
  · obtain rfl := Option.some.inj hb
    refine ⟨h.held f (hs ▸ List.mem_cons_self) js a recs hf, ?_⟩
    have hkey : f.key? = some (js, a.token) := by rw [Frame.key?, hf]; rfl
    rw [hs, List.filterMap_cons_some hkey, List.nodup_cons] at hd
    exact hd.1

/-- A callback is started. -/
theorem launch (h : Inv s) {armed : Armed φ} {records : List JobRecord}
    (hfree : Free s jobsetId records (some armed)) :
    Inv { s with history := s.history ++ [.launched jobsetId armed records] } := by
  obtain ⟨⟨htaken, hunlaunched⟩, hkey⟩ := hfree armed rfl
  refine ⟨sound_concat.mpr ⟨h.sound, htaken, hunlaunched⟩, fun js token fn hm => ?_,
    fun js ent hent => ?_, fun js a ha => ?_, fun f hf js a recs hk => ?_, h.distinct, fun js => ?_,
    fun js a hm => ?_⟩
  · exact h.fresh js token fn (by simpa using hm)
  · obtain ⟨hs, hc⟩ := h.pending js ent hent
    exact ⟨List.mem_append_left _ hs, by simpa using hc⟩
  · obtain ⟨hby, ht⟩ := h.armed js a ha
    exact ⟨hby.concat (by simp [Event.Disarms]), fun b recs hb => by simpa using ht b recs hb⟩
  · obtain ⟨ht, hl⟩ := h.held f hf js a recs hk
    refine ⟨List.mem_append_left _ ht, fun b recs' hb hm => ?_⟩
    obtain hm | heq := List.mem_append.mp hm
    · exact hl b recs' hb hm
    · obtain ⟨rfl, rfl, rfl⟩ : js = jobsetId ∧ b = armed ∧ recs' = records := by simpa using heq
      refine hkey (List.mem_filterMap.mpr ⟨f, hf, ?_⟩)
      rw [Frame.key?, hk, hb]
      rfl
  · refine (h.latch js).trans ?_
    simp [since_concat, Event.Latches, Event.Releases]
  · exact (h.kills js a (by simpa using hm)).imp_right fun hd => List.mem_append_left _ hd

theorem resume (h : Inv s) : Inv (s.step .resume) := by
  rw [State.step]
  split
  case h_1 => exact h
  case h_2 js armed records stack hs =>
    obtain ⟨hpop, hfree⟩ := h.pop hs
    refine hpop.postProcess fun a ha => ?_
    exact hfree js a records (by rw [Frame.armed?, ha]; rfl) a rfl
  case h_3 js armed records stack hs =>
    obtain ⟨hpop, hfree⟩ := h.pop hs
    split
    case isTrue => exact hpop
    case isFalse => exact hpop.launch (hfree js armed records rfl)

theorem step (h : Inv s) (a : Act φ) : Inv (s.step a) := by
  cases a with
  | stage js fn poll => exact h.stage fn poll
  | confirm js token => exact h.confirm token
  | discard js token => exact h.discard token
  | maybeFinish js view => exact h.maybeFinish view
  | forget js => exact h.forget
  | killAccepted js jobIds => exact h.killAccepted jobIds
  | killDelivered js slot => exact h.killDelivered slot
  | shutdown => exact ⟨h.sound, h.fresh, h.pending, h.armed, h.held, h.distinct, h.latch, h.kills⟩
  | resume => exact h.resume

end Inv

theorem inv_of_reachable {s : State φ} (h : (mainThread φ).Reachable s) : Inv s :=
  h.invariant (fun _ hs => by obtain rfl := hs; exact inv_init)
    fun _ a _ _ hi _ hs => by obtain rfl := Option.some.inj hs; exact hi.step a

/-! ## Once for each completion -/

/-- **A callback is started once, and for its own cycle**: in every run, whatever slots and stale
signals do, the callback of a token is started at most once for its jobset, after the cycle of that
token has started, with records that were read between then and the next submission, and all of
which are done. -/
theorem postProcess_once {s : State φ} (h : (mainThread φ).Reachable s)
    {before after : List (Event φ)}
    {jobsetId : String} {armed : Armed φ} {records : List JobRecord}
    (he : s.history = before ++ .launched jobsetId armed records :: after) :
    (∀ a recs, a.token = armed.token → .launched jobsetId a recs ∉ before) ∧
      CompletionTracker.allTerminal records = true ∧
      ∃ before₁ before₂ before₃,
        before = before₁ ++ .confirmed jobsetId armed.token :: before₂ ++
          .taken jobsetId armed records :: before₃ ∧
        .staged jobsetId armed.token (some armed.fn) ∈ before₁ ∧
        ∀ token fn, .staged jobsetId token fn ∉ before₂ := by
  have hs := (inv_of_reachable h).sound
  obtain ⟨htaken, hunlaunched⟩ := hs before _ after he
  obtain ⟨before₀, before₃, rfl⟩ := List.append_of_mem htaken
  obtain ⟨hterm, ⟨before₁, before₂, rfl, hstaged, hsince⟩, -⟩ :=
    hs before₀ (.taken jobsetId armed records)
      (before₃ ++ .launched jobsetId armed records :: after) (by simp [he])
  exact ⟨hunlaunched, hterm, before₁, before₂, before₃, rfl, hstaged,
    fun token fn hm => hsince _ hm rfl⟩

/-- **A completion is notified once**: the records of a notice are all done, and not all of them
killed, and the kills that may concern them are delivered; between two notices for a jobset its next
cycle has started, it was removed, or it was read as not done. -/
theorem finished_once {s : State φ} (h : (mainThread φ).Reachable s) {before after : List (Event φ)}
    {jobsetId : String} {records : List JobRecord} {summary : InMemoryStore.Summary}
    (he : s.history = before ++ .finished jobsetId records summary :: after) :
    CompletionTracker.allTerminal records = true ∧ (∃ r ∈ records, r.killed = false) ∧
      Delivered before jobsetId records ∧
      ∀ before₁ recs sum before₂, before = before₁ ++ .finished jobsetId recs sum :: before₂ →
        ∃ e ∈ before₂, e.Releases jobsetId := by
  obtain ⟨hterm, hkilled, hlatch, hdelivered⟩ := (inv_of_reachable h).sound before _ after he
  refine ⟨hterm, hkilled, hdelivered, fun before₁ recs sum before₂ hb => ?_⟩
  by_contra hno
  push Not at hno
  exact hlatch ⟨before₁, _, before₂, hb, rfl, hno⟩

/-- **No completion is missed**: once `maybe_finish` has read a jobset that is done, with no cycle
and no kill in the way, it has been notified of, or was killed as a whole, since it was last
released. -/
theorem completion_noticed {s : State φ} (h : (mainThread φ).Reachable s) (jobsetId : String)
    {records : List JobRecord} {summary : InMemoryStore.Summary} (hup : s.shutdownDone = false)
    (hterm : CompletionTracker.allTerminal records = true)
    (hkills : blocksCompletion s.kills jobsetId records = false) :
    Since (Event.Latches jobsetId) (Event.Releases jobsetId)
      (s.step (.maybeFinish jobsetId
        { active := false, records := some records, summary := some summary })).history := by
  have hi := (inv_of_reachable h).step (.maybeFinish jobsetId
    { active := false, records := some records, summary := some summary })
  rw [← hi.latch, State.step, State.maybeFinish]
  simp only [hup, hterm, hkills, Bool.false_eq_true, if_false, if_true]
  exact mem_notify _ jobsetId records summary _

/-! ## A run with a resubmission from inside of a notice -/

/-- A job that has ended. -/
def doneRecord : JobRecord := { jobsetId := "js", jobKey := "k", state := .done, generation := 1 }

/-- The view of a jobset with that job alone. -/
def doneView : View where
  active := false
  records := some [doneRecord]
  summary := some { total := 1, counts := ∅ }

/-- A cycle runs to its end, and the slots of the notice submit again before its callback is
started. -/
def resubmitted : List (Act Unit) :=
  [.stage "js" (some ()) none, .confirm "js" 0, .maybeFinish "js" doneView,
    .stage "js" (some ()) none, .resume, .resume]

theorem run_resubmitted :
    (mainThread Unit).run {} resubmitted = some (resubmitted.foldl State.step {}) := rfl

theorem postProcess_once_resubmitted :
    ∃ before₁ before₂ before₃,
      [.staged "js" 0 (some ()), .confirmed "js" 0, .taken "js" ⟨(), 0⟩ [doneRecord],
          .finished "js" [doneRecord] { total := 1, counts := ∅ }, .staged "js" 1 (some ())] =
        before₁ ++ .confirmed "js" 0 :: before₂ ++ .taken "js" ⟨(), 0⟩ [doneRecord] :: before₃ ∧
      Event.staged "js" 0 (some ()) ∈ before₁ ∧ ∀ token fn, .staged "js" token fn ∉ before₂ := by
  have he : (resubmitted.foldl State.step {}).history =
      [.staged "js" 0 (some ()), .confirmed "js" 0, .taken "js" ⟨(), 0⟩ [doneRecord],
        .finished "js" [doneRecord] { total := 1, counts := ∅ }, .staged "js" 1 (some ())] ++
        .launched "js" ⟨(), 0⟩ [doneRecord] :: [] := rfl
  exact (postProcess_once (System.reachable_of_run (.init rfl) run_resubmitted) he).2.2

theorem finished_once_resubmitted :
    Delivered [.staged "js" 0 (some ()), .confirmed "js" 0, .taken "js" ⟨(), 0⟩ [doneRecord]] "js"
      [doneRecord] := by
  have he : (resubmitted.foldl State.step {}).history =
      [.staged "js" 0 (some ()), .confirmed "js" 0, .taken "js" ⟨(), 0⟩ [doneRecord]] ++
        .finished "js" [doneRecord] { total := 1, counts := ∅ } ::
          [.staged "js" 1 (some ()), .launched "js" ⟨(), 0⟩ [doneRecord]] := rfl
  exact (finished_once (System.reachable_of_run (.init rfl) run_resubmitted) he).2.2.1

/-- The second cycle is confirmed, and read as done, too. -/
theorem completion_noticed_resubmitted :
    let acts : List (Act Unit) := resubmitted ++ [.confirm "js" 1]
    Since (Event.Latches "js") (Event.Releases "js")
      ((acts.foldl State.step {}).step (.maybeFinish "js" doneView)).history := by
  intro acts
  have hrun : (mainThread Unit).run {} acts = some (acts.foldl State.step {}) := rfl
  exact completion_noticed (System.reachable_of_run (.init rfl) hrun) "js" rfl rfl rfl

end Lsfmgr.Completion
