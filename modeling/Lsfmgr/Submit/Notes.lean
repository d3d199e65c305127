import Mathlib
import Lsfmgr.Store.Revisions
import Lsfmgr.Submit.Current
import Lsfmgr.Submit.Phases

/-!
# Submit/Notes — what an instruction does to the records on their way to a batch

A record that a write returned travels from the code of its thread (`Instr.notes`) through the
shared buffer of the cycle into a batch.  `Publishes` says what one instruction does to that;
`exec_finish` that a launched cycle ends in one place.
-/

namespace Lsfmgr.Submit

open Machinery

/-! ## What is observed -/

def Signal.batch? : Signal → Option (List JobRecord)
  | jobsChanged rs => some rs
  | _ => none

def Signal.progress? : Signal → Option (ℕ × ℕ)
  | progress done total => some (done, total)
  | _ => none

def Signal.reset? : Signal → Option (List JobRecord)
  | recordsReset rs => some rs
  | _ => none

/-- What a list tagged with cycles has for the cycle `c`. -/
def ofCycle {α : Type} (c : ℕ) (l : List (ℕ × α)) : List α :=
  l.filterMap fun e => if e.1 = c then some e.2 else none

section OfCycle

variable {α : Type} (c : ℕ)

@[simp] theorem ofCycle_append (l l' : List (ℕ × α)) :
    ofCycle c (l ++ l') = ofCycle c l ++ ofCycle c l' := List.filterMap_append

@[simp] theorem ofCycle_own (l : List α) : ofCycle c (l.map fun s => (c, s)) = l := by
  simp [ofCycle, List.filterMap_map]

theorem ofCycle_other {c c' : ℕ} (h : c' ≠ c) (l : List α) :
    ofCycle c' (l.map fun s => (c, s)) = [] := by
  simp [ofCycle, List.filterMap_map, Ne.symm h]

variable {c}

theorem mem_ofCycle {l : List (ℕ × α)} {a : α} : a ∈ ofCycle c l ↔ (c, a) ∈ l := by
  simp only [ofCycle, List.mem_filterMap, Prod.exists, Option.ite_none_right_eq_some,
    Option.some.injEq]
  constructor
  · rintro ⟨c', a', hmem, rfl, rfl⟩
    exact hmem
  · exact fun h => ⟨c, a, h, rfl, rfl⟩

theorem ofCycle_of_not_logged {l : List (ℕ × α)} (h : ∀ e ∈ l, e.1 ≠ c) : ofCycle c l = [] :=
  List.filterMap_eq_nil_iff.mpr fun e he => if_neg (h e he)

theorem reportsOf_eq (log : List (ℕ × Signal)) :
    reportsOf c log = (ofCycle c log).filterMap Signal.report? := by
  rw [reportsOf, ofCycle, List.filterMap_filterMap]
  refine List.filterMap_congr fun e _ => ?_
  split <;> rfl

end OfCycle

/-- The records of one key. -/
def recordsAt (k : Key) (rs : List JobRecord) : List JobRecord := rs.filter fun r => r.jobKey = k

@[simp] theorem recordsAt_nil (k : Key) : recordsAt k [] = [] := rfl

@[simp] theorem recordsAt_append (k : Key) (rs rs' : List JobRecord) :
    recordsAt k (rs ++ rs') = recordsAt k rs ++ recordsAt k rs' := List.filter_append ..

theorem recordsAt_eq_nil {k : Key} {rs : List JobRecord} :
    recordsAt k rs = [] ↔ ∀ r ∈ rs, r.jobKey ≠ k := by
  simp [recordsAt, List.filter_eq_nil_iff]

/-! ## What an instruction carries, writes and publishes -/

namespace Instr

/-- The records this instruction has still to put into the buffer. -/
def notes : Instr → List JobRecord
  | note r => [r]
  | count _ _ changed => changed
  | _ => []

/-- The key this instruction moves to `PEND`, `RETRY_WAIT`, `SUBMIT_FAILED` or `CANCELLED`, or, in a
retry, to `SUBMITTING`. -/
def publishedKey? : Instr → Option Key
  | toSubmitting k attempt => if attempt.number = 0 then none else some k
  | succeeded k _ | toRetryWait k _ _ | toSubmitFailed k _ _ | cancelled k | crashed k _
  | giveUpWrite k _ => some k
  | _ => none

/-- The record such a write returned: the one it left in the store, if it wrote. -/
def returned (P : Params) (x : Instr) (s s' : InMemoryStore) : List JobRecord :=
  match x.publishedKey? with
  | none => []
  | some k =>
    if s'.job? P.jobsetId k = s.job? P.jobsetId k then [] else (s'.job? P.jobsetId k).toList

/-- The batch this instruction publishes past the buffer. -/
def ownBatch : Instr → List JobRecord
  | announce launched => launched
  | gateFail _ [] _ stuck => stuck
  | _ => []

/-- The launch up to the announcement of the reset… -/
def isAhead : Instr → Bool
  | register _ | newContext _ _ | startLaunch _ | preSubmitStart | preSubmitRun | preSubmitOk
  | launch | readBlocked | readPrevious _ | reset .. | makeTasks _ | checkFinished _
  | announce _ => true
  | _ => false

/-- …and the endings of a launch that announces none. -/
def isPrelude : Instr → Bool
  | gateReject _ | gateFail .. | finishForced .. => true
  | x => x.isAhead

/-- The key of a record that is still to be published has a unit to be counted after that. -/
def Backed (all : List Key) (rest : List Instr) : Instr → Prop
  | note r => r.jobKey ∈ codeUnits all rest
  | count ks _ changed => ∀ r ∈ changed, r.jobKey ∈ ks
  | _ => True

theorem isLaunch_of_isPrelude {x : Instr} (h : x.isPrelude = true) : x.isLaunch = true := by
  cases x with
  | finishIfDone b => cases h
  | _ => first | rfl | cases h

theorem isPrelude_of_isAhead {x : Instr} (h : x.isAhead = true) : x.isPrelude = true := by
  cases x <;> first | rfl | cases h

end Instr

def codeNotes (code : List Instr) : List JobRecord := code.flatMap Instr.notes

@[simp] theorem codeNotes_nil : codeNotes [] = [] := rfl

@[simp] theorem codeNotes_cons (x : Instr) (code : List Instr) :
    codeNotes (x :: code) = x.notes ++ codeNotes code := List.flatMap_cons

@[simp] theorem codeNotes_append (a b : List Instr) :
    codeNotes (a ++ b) = codeNotes a ++ codeNotes b := List.flatMap_append

def BackedCode (all : List Key) : List Instr → Prop
  | [] => True
  | x :: rest => x.Backed all rest ∧ BackedCode all rest

theorem BackedCode.append {all : List Key} {b : List Instr} (hb : BackedCode all b) :
    ∀ {a : List Instr}, BackedCode all a → BackedCode all (a ++ b)
  | [], _ => hb
  | x :: a, ⟨hx, ha⟩ => by
      refine ⟨?_, append hb ha⟩
      cases x with
      | note r =>
        change r.jobKey ∈ codeUnits all (a ++ b)
        rw [codeUnits_append]
        exact Multiset.mem_add.mpr (.inl hx)
      | _ => exact hx

/-- A record that a thread carries belongs to a unit it holds. -/
theorem BackedCode.unit {all : List Key} {r : JobRecord} :
    ∀ {code : List Instr}, BackedCode all code → r ∈ codeNotes code →
      r.jobKey ∈ codeUnits all code
  | [], _, hr => by cases hr
  | x :: code, ⟨hx, hcode⟩, hr => by
      rw [codeUnits_cons, Multiset.mem_add]
      rcases List.mem_append.mp (codeNotes_cons x code ▸ hr) with hr | hr
      · cases x with
        | note r' =>
          obtain rfl := List.mem_singleton.mp hr
          exact .inr hx
        | count ks out changed => exact .inl (Multiset.mem_coe.mpr (hx r hr))
        | _ => cases hr
      · exact .inr (hcode.unit hr)

/-- Code that notes nothing. -/
theorem backedCode_of_notes {all : List Key} : ∀ {code : List Instr},
    (∀ y ∈ code, y.notes = []) → BackedCode all code
  | [], _ => trivial
  | x :: code, h => by
      refine ⟨?_, backedCode_of_notes fun y hy => h y (List.mem_cons_of_mem _ hy)⟩
      have hx := h x List.mem_cons_self
      cases x with
      | note r => cases hx
      | count ks out changed =>
        intro r hr
        rw [show changed = [] from hx] at hr
        cases hr
      | _ => trivial

theorem codeNotes_eq_nil {code : List Instr} (h : ∀ y ∈ code, y.notes = []) :
    codeNotes code = [] := List.flatMap_eq_nil_iff.mpr h

/-! ## One instruction -/

/-- What an instruction does to the records on their way to a batch. -/
structure Publishes (P : Params) (cyc : Cycle) (w : Shared) (x : Instr) (e : Effect) : Prop where
  /-- Its code carries the record it wrote, and nothing else. -/
  notes : codeNotes e.code = x.returned P w.store e.store
  spawned : ∀ code ∈ e.spawned, ∀ y ∈ code, y.notes = []
  backed : BackedCode cyc.keys e.code
  /-- What it carried itself goes into the buffer; a batch takes out the whole buffer. -/
  buffer : (e.signals.filterMap Signal.batch?).flatten ++ e.cyc.changedBuffer
    = x.ownBatch ++ (cyc.changedBuffer ++ x.notes)
  nonempty : ∀ b ∈ e.signals.filterMap Signal.batch?, b ≠ []

theorem batches_batch (rs : List JobRecord) :
    ((batch rs).filterMap Signal.batch?).flatten = rs ∧
      ∀ b ∈ (batch rs).filterMap Signal.batch?, b ≠ [] := by
  rw [batch]
  split
  case isTrue h => simp [h]
  case isFalse h => simpa [Signal.batch?] using h

section Exec

variable {P : Params} {o : Oracle} {c : ℕ} {cyc : Cycle} {w : Shared} {x : Instr} {e : Effect}

theorem returned_of_transition (hp : w.store.Placed) {k : Key} {now : Time} {ns : Option JobState}
    {guard : Option Guard} {fields : List Field} {rec : Option JobRecord} {store : InMemoryStore}
    (hx : x.publishedKey? = some k)
    (h : w.store.transition now P.jobsetId k ns guard fields = .ok (rec, store)) :
    rec.toList = x.returned P w.store store ∧ ∀ r ∈ rec, r.jobKey = k := by
  simp only [Instr.returned, hx]
  obtain ⟨rfl, rfl⟩ | ⟨old, new, rfl, hold, hnew, hf, hw⟩ := InMemoryStore.transition_ok hp h
  · simp
  · have hjob : store.job? P.jobsetId k = some new := by simp [hw.job?]
    have hrev : new.revision = old.revision + 1 := by rw [hnew]; rfl
    have hne : store.job? P.jobsetId k ≠ w.store.job? P.jobsetId k := by
      rw [hjob, hold]
      intro heq
      obtain rfl := Option.some.inj heq
      omega
    obtain ⟨-, hkey⟩ := hp.own _ _ _ hold
    obtain ⟨-, h₂⟩ := InMemoryStore.rewrite_ids now hf old (ns.getD old.state) old.revision
    refine ⟨by rw [if_neg hne, hjob], fun r hr => ?_⟩
    obtain rfl := Option.mem_some_iff.mp hr
    rw [hnew, h₂, hkey]

/-- An instruction that neither writes to a published record nor touches the buffer. -/
theorem Publishes.of_silent (hx : x.publishedKey? = none) (hn : x.notes = [])
    (ho : x.ownBatch = []) (hcode : ∀ y ∈ e.code, y.notes = [])
    (hspawned : ∀ code ∈ e.spawned, ∀ y ∈ code, y.notes = [])
    (hsig : e.signals.filterMap Signal.batch? = [])
    (hbuf : e.cyc.changedBuffer = cyc.changedBuffer) : Publishes P cyc w x e where
  notes := by rw [codeNotes_eq_nil hcode, Instr.returned, hx]
  spawned := hspawned
  backed := backedCode_of_notes hcode
  buffer := by simp [hsig, hbuf, hn, ho]
  nonempty := by simp [hsig]

/-- A write that found no record. -/
theorem Publishes.of_vanished {k : Key} (hn : x.notes = []) (ho : x.ownBatch = [])
    (code : List Instr) (hcode : ∀ y ∈ code, y.notes = []) {signals : List Signal}
    (hsig : signals.filterMap Signal.batch? = []) (hx : x.publishedKey? = some k) :
    Publishes P cyc w x { Effect.pass cyc w with code, signals } where
  notes := by simp [Instr.returned, hx, Effect.pass, codeNotes_eq_nil hcode]
  spawned := by simp [Effect.pass]
  backed := backedCode_of_notes hcode
  buffer := by simp [Effect.pass, hn, ho, hsig]
  nonempty := by simp [hsig]

/-- A write, whose record goes into the code. -/
theorem Publishes.of_wrote (hp : w.store.Placed) {k : Key} {now : Time} {ns : Option JobState}
    {guard : Option Guard} {fields : List Field} {rec : Option JobRecord} {store : InMemoryStore}
    (hn : x.notes = []) (ho : x.ownBatch = []) (hx : x.publishedKey? = some k)
    (h : w.store.transition now P.jobsetId k ns guard fields = .ok (rec, store))
    {code : List Instr} {signals : List Signal} (hsig : signals.filterMap Signal.batch? = [])
    (hcode : codeNotes code = rec.toList)
    (hbacked : (∀ r ∈ rec, r.jobKey = k) → BackedCode cyc.keys code) :
    Publishes P cyc w x { Effect.pass cyc w with store, code, signals } where
  notes := hcode.trans (returned_of_transition hp hx h).1
  spawned := by simp [Effect.pass]
  backed := hbacked (returned_of_transition hp hx h).2
  buffer := by simp [Effect.pass, hn, ho, hsig]
  nonempty := by simp [hsig]

/-- The count of one unit carries the record of its last write. -/
theorem backed_count {k : Key} {out : Outcome} {rec : Option JobRecord} {all : List Key}
    (h : ∀ r ∈ rec, r.jobKey = k) : BackedCode all [.count [k] out rec.toList] :=
  ⟨fun r hr => List.mem_singleton.mpr (h r (Option.mem_toList.mp hr)), trivial⟩

/-- The code that publishes a write and goes on with the unit. -/
theorem publishing_noted {k : Key} {rec : Option JobRecord} (all : List Key) (code : List Instr)
    (h : ∀ r ∈ rec, r.jobKey = k) (hk : k ∈ codeUnits all code) (hcode : ∀ y ∈ code, y.notes = []) :
    codeNotes ((rec.toList.flatMap fun r => [.note r, .emitProgress false]) ++ code) = rec.toList ∧
      BackedCode all ((rec.toList.flatMap fun r => [.note r, .emitProgress false]) ++ code) := by
  rcases rec with _ | r
  · exact ⟨codeNotes_eq_nil hcode, backedCode_of_notes hcode⟩
  · refine ⟨by simp [codeNotes_eq_nil hcode, Instr.notes], ?_, trivial, backedCode_of_notes hcode⟩
    change r.jobKey ∈ codeUnits all (.emitProgress false :: code)
    rw [h r rfl, codeUnits_cons]
    exact Multiset.mem_add.mpr (.inr hk)

theorem exec_publishes_write (hp : w.store.Placed) {k : Key} (hx : x.publishedKey? = some k)
    (h : exec P o c cyc w x = some e) : Publishes P cyc w x e := by
  have hgone : ∀ out : Outcome, ∀ y ∈ [Instr.count [k] out []], y.notes = [] := by
    intro out y hy
    obtain rfl := List.mem_singleton.mp hy
    rfl
  cases x
  case toSubmitting k' a =>
    obtain rfl := Option.some.inj h
    simp only [Instr.publishedKey?] at hx
    split at hx
    case isTrue => cases hx
    case isFalse ha =>
      obtain rfl := Option.some.inj hx
      have hx' : (Instr.toSubmitting k' a).publishedKey? = some k' := if_neg ha
      rw [toSubmitting]
      split
      case h_1 => exact .of_vanished rfl rfl _ (hgone _) rfl hx'
      case h_2 rec store hok =>
        have hkey := (returned_of_transition hp hx' hok).2
        obtain ⟨h₁, h₂⟩ := publishing_noted cyc.keys [.slotWait k' a] hkey
          (by simp [Instr.units]) (by simp [Instr.notes])
        refine .of_wrote hp rfl rfl hx' hok rfl ?_ fun _ => ?_
        · rw [if_neg ha]
          exact h₁
        · rw [if_neg ha]
          exact h₂
  case toRetryWait k' a err =>
    obtain rfl := Option.some.inj h
    obtain rfl := Option.some.inj hx
    rw [toRetryWait]
    split
    case h_1 => exact .of_vanished rfl rfl _ (hgone _) rfl rfl
    case h_2 rec store hok =>
      have hkey := (returned_of_transition (x := .toRetryWait k' a err) hp rfl hok).2
      obtain ⟨h₁, h₂⟩ := publishing_noted cyc.keys
        [.schedule k' a.next, .requestRetry k'] hkey (by simp [Instr.units])
        (by simp [Instr.notes])
      exact .of_wrote hp rfl rfl rfl hok rfl (by simpa [Instr.notes] using h₁)
        fun _ => ⟨trivial, by simpa using h₂⟩
  case succeeded k' n =>
    obtain rfl := Option.some.inj h
    obtain rfl := Option.some.inj hx
    rw [taskSucceeded]
    split
    case h_1 => exact .of_vanished rfl rfl _ (hgone _) rfl rfl
    case h_2 hok => exact .of_wrote hp rfl rfl rfl hok rfl (by simp [Instr.notes]) backed_count
  case toSubmitFailed k' a err =>
    obtain rfl := Option.some.inj h
    obtain rfl := Option.some.inj hx
    rw [toSubmitFailed]
    split
    case h_1 => exact .of_vanished rfl rfl _ (hgone _) rfl rfl
    case h_2 hok => exact .of_wrote hp rfl rfl rfl hok rfl (by simp [Instr.notes]) backed_count
  case giveUpWrite k' reason =>
    obtain rfl := Option.some.inj h
    obtain rfl := Option.some.inj hx
    rw [finalizeRetryWrite]
    split
    case h_1 => exact .of_vanished rfl rfl _ (hgone _) rfl rfl
    case h_2 hok => exact .of_wrote hp rfl rfl rfl hok rfl (by simp [Instr.notes]) backed_count
  case crashed k' m =>
    obtain rfl := Option.some.inj h
    obtain rfl := Option.some.inj hx
    rw [taskCrashed]
    split
    case h_1 => exact .of_vanished rfl rfl _ (hgone _) rfl rfl
    case h_2 hok => exact .of_wrote hp rfl rfl rfl hok rfl (by simp [Instr.notes]) backed_count
  case cancelled k' =>
    obtain rfl := Option.some.inj h
    obtain rfl := Option.some.inj hx
    rw [markCancelled_eq hp]
    split
    case h_1 => exact .of_vanished rfl rfl _ (hgone _) rfl rfl
    case h_2 hok => exact .of_wrote hp rfl rfl rfl hok rfl (by simp [Instr.notes]) backed_count
  all_goals cases hx

/-- The four places where the buffer or a batch changes hands. -/
theorem exec_publishes_book
    (hcount : ∀ ks out ch, x = .count ks out ch → ∀ r ∈ ch, r.jobKey ∈ ks)
    (hx : (∃ r, x = .note r) ∨ (∃ ks out ch, x = .count ks out ch) ∨ (∃ b, x = .emitProgress b) ∨
      ∃ b, x = .finishIfDone b)
    (h : exec P o c cyc w x = some e) : Publishes P cyc w x e := by
  rcases hx with ⟨r, rfl⟩ | ⟨ks, out, ch, rfl⟩ | ⟨b, rfl⟩ | ⟨b, rfl⟩
  · obtain rfl := Option.some.inj h
    exact ⟨rfl, by simp [note, Effect.pass], trivial, rfl, by simp [note, Effect.pass]⟩
  · obtain rfl := Option.some.inj h
    rw [count]
    split
    case isTrue hks =>
      have hch : ch = [] := List.eq_nil_iff_forall_not_mem.mpr fun r hr => by
        have := hcount _ _ _ rfl r hr
        simp [hks] at this
      exact .of_silent rfl hch rfl (by simp [Effect.pass]) (by simp [Effect.pass]) rfl rfl
    case isFalse =>
      refine ⟨rfl, by simp [Effect.pass], ⟨trivial, trivial, trivial⟩, ?_, by simp [Effect.pass]⟩
      cases out <;> rfl
  · obtain rfl := Option.some.inj h
    rw [emitProgress]
    split
    case isTrue =>
      exact .of_silent rfl rfl rfl (by simp [Effect.pass]) (by simp [Effect.pass]) rfl rfl
    case isFalse =>
      obtain ⟨h₁, h₂⟩ := batches_batch cyc.changedBuffer
      refine ⟨rfl, by simp [Effect.pass], trivial, ?_, ?_⟩
      · cases b <;> simp [List.filterMap_cons, Signal.batch?, h₁, Instr.ownBatch, Instr.notes]
      · cases b <;> simpa [List.filterMap_cons, Signal.batch?] using h₂
  · obtain rfl := Option.some.inj h
    rw [finishIfDone]
    split
    case isTrue =>
      exact .of_silent rfl rfl rfl (by simp [Effect.pass]) (by simp [Effect.pass]) rfl rfl
    case isFalse =>
      obtain ⟨h₁, h₂⟩ := batches_batch cyc.changedBuffer
      refine ⟨rfl, by simp [Effect.pass], ⟨trivial, trivial, trivial⟩, ?_, ?_⟩
      · split <;> simp [List.filterMap_cons, Signal.batch?, h₁, Instr.ownBatch, Instr.notes]
      · split <;> simpa [List.filterMap_cons, Signal.batch?] using h₂

/-- **What an instruction does to the records on their way to a batch.** -/
theorem exec_publishes (hp : w.store.Placed)
    (hcount : ∀ ks out ch, x = .count ks out ch → ∀ r ∈ ch, r.jobKey ∈ ks)
    (h : exec P o c cyc w x = some e) : Publishes P cyc w x e := by
  rcases hk : x.publishedKey? with _ | k
  case some => exact exec_publishes_write hp hk h
  cases x
  case slotWait k a =>
    simp only [exec, slotWait] at h
    split at h <;> split at h <;> cases h <;>
      exact .of_silent rfl rfl rfl (by simp [Instr.notes]) (by simp [Effect.pass]) rfl rfl
  case toSubmitting k a =>
    obtain rfl := Option.some.inj h
    have hfirst : a.number = 0 := by simpa [Instr.publishedKey?] using hk
    rw [toSubmitting]
    split <;> exact .of_silent hk rfl rfl (by simp [vanished, hfirst, Instr.notes])
      (by simp [vanished, Effect.pass]) rfl rfl
  case note | count | emitProgress | finishIfDone => exact exec_publishes_book hcount (by simp) h
  case announce l =>
    obtain rfl := Option.some.inj h
    obtain ⟨h₁, h₂⟩ := batches_batch l
    refine ⟨?_, by simp [announce, Effect.pass], ?_, ?_, ?_⟩
    · rw [announce]
      split <;> rfl
    · rw [announce]
      split <;> exact ⟨trivial, trivial⟩
    · simpa [announce, List.filterMap_cons, Signal.batch?, Instr.ownBatch, Instr.notes,
        Effect.pass] using h₁
    · simpa [announce, List.filterMap_cons, Signal.batch?] using h₂
  case gateFail ks todo m st =>
    obtain rfl := Option.some.inj h
    cases todo with
    | nil =>
      obtain ⟨h₁, h₂⟩ := batches_batch st
      refine ⟨rfl, by simp [gateFail, Effect.pass], ⟨trivial, trivial⟩, ?_, ?_⟩
      · simpa [gateFail, List.filterMap_cons, Signal.batch?, Instr.ownBatch, Instr.notes,
          Effect.pass] using h₁
      · simpa [gateFail, List.filterMap_cons, Signal.batch?] using h₂
    | cons r todo =>
      rw [gateFail]
      split <;> exact .of_silent rfl rfl rfl (by simp [Instr.notes]) (by simp [Effect.pass]) rfl rfl
  case reset todo b prev l st sk =>
    obtain rfl := Option.some.inj h
    cases todo with
    | nil =>
      refine .of_silent rfl rfl rfl ?_ (by simp [resetRecords, Effect.pass]) ?_ rfl
      · by_cases hs : sk = [] <;> simp [resetRecords, hs, Instr.notes]
      · by_cases hs : st = [] <;> simp [resetRecords, hs, Signal.batch?]
    | cons ki todo =>
      rw [resetRecords]
      repeat' split
      all_goals exact .of_silent rfl rfl rfl (by simp [Instr.notes]) (by simp [Effect.pass]) rfl rfl
  case fire k =>
    obtain rfl := Option.some.inj h
    rw [fire]
    split
    case h_1 =>
      exact .of_silent rfl rfl rfl (by simp [Effect.pass]) (by simp [Effect.pass]) rfl rfl
    case h_2 hpop =>
      have hbuf := congrArg Cycle.changedBuffer (Cycle.popRetry_spec hpop).2.2.2
      exact .of_silent rfl rfl rfl (by simp [Instr.notes]) (by simp [Effect.pass]) rfl hbuf
  case fanOut todo =>
    obtain rfl := Option.some.inj h
    cases todo <;> exact .of_silent rfl rfl rfl (by simp [fanOut, Effect.pass, Instr.notes])
      (by simp [fanOut, Effect.pass, Instr.notes]) rfl rfl
  case finishForced ks f em =>
    obtain rfl := Option.some.inj h
    rw [finishForced]
    split
    · exact .of_silent rfl rfl rfl (by simp [Instr.notes]) (by simp [Effect.pass]) rfl rfl
    · refine .of_silent rfl rfl rfl (by simp [Instr.notes]) (by simp [Effect.pass]) ?_ ?_
      · cases em <;> rfl
      · cases f <;> rfl
  case toRetryWait | succeeded | toSubmitFailed | giveUpWrite | crashed | cancelled => cases hk
  all_goals
    obtain rfl := Option.some.inj h
    simp only [enterInflight, slotHeld, runSubmit, taskFailed, retryCheck, markRetried,
      scheduleRetry, requestRetry, releaseSlot, leaveInflight, onRetryRequested, fired,
      finalizeRetry, unregister, dropContext, registerCycle, newContext, startLaunch,
      preSubmitStart, preSubmitRun, preSubmitOk, launchCycle, readBlocked, readPrevious, makeTasks,
      checkFinished, gateReject, vanished]
    repeat' split
    all_goals
      refine .of_silent rfl rfl rfl ?_ ?_ rfl rfl
      · simp [Instr.notes, Effect.pass]
      · simp [Instr.notes, Effect.pass]

/-- Where a reset and a progress come from. -/
def Signal.From (cyc : Cycle) (x : Instr) : Signal → Prop
  | recordsReset l => x = .announce l
  | progress done total => cyc.finished = false ∧ total = cyc.total ∧
      (done = cyc.done ∨ done = cyc.total ∧ cyc.total ≤ cyc.done)
  | _ => True

theorem from_batch (rs : List JobRecord) : ∀ sig ∈ batch rs, sig.From cyc x := by
  rw [batch]
  split <;> simp [Signal.From]

theorem exec_from (h : exec P o c cyc w x = some e) : ∀ sig ∈ e.signals, sig.From cyc x := by
  cases x
  case slotWait k a =>
    simp only [exec, slotWait] at h
    split at h <;> split at h <;> cases h <;> simp [Effect.pass]
  case announce l =>
    obtain rfl := Option.some.inj h
    exact List.forall_mem_cons.mpr ⟨rfl, from_batch l⟩
  case emitProgress b =>
    obtain rfl := Option.some.inj h
    rw [emitProgress]
    split
    case isTrue => simp [Effect.pass]
    case isFalse hopen =>
      rw [List.forall_mem_append]
      refine ⟨fun sig hsig => ?_, from_batch _⟩
      have hsig : sig = .progress cyc.done cyc.total := by cases b <;> simp_all
      rw [hsig]
      exact ⟨by simpa using fun hf => hopen (.inl hf), rfl, .inl rfl⟩
  case finishIfDone b =>
    obtain rfl := Option.some.inj h
    rw [finishIfDone]
    split
    case isTrue => simp [Effect.pass]
    case isFalse hopen =>
      rw [List.forall_mem_append, List.forall_mem_append]
      refine ⟨⟨fun sig hsig => ?_, from_batch _⟩, by simp [Signal.From]⟩
      split at hsig
      case isTrue hle =>
        obtain rfl := List.mem_singleton.mp hsig
        exact ⟨by simpa using fun hf => hopen (.inl hf), rfl, .inr ⟨rfl, hle⟩⟩
      case isFalse => cases hsig
  case gateFail ks todo m st =>
    obtain rfl := Option.some.inj h
    cases todo with
    | nil =>
      change ∀ sig ∈ batch st ++ _, _
      rw [List.forall_mem_append]
      exact ⟨from_batch st, by simp [Signal.From]⟩
    | cons r todo =>
      rw [gateFail]
      split <;> simp [Effect.pass]
  case reset todo b prev l st sk =>
    obtain rfl := Option.some.inj h
    cases todo with
    | nil => by_cases hs : st = [] <;> simp [resetRecords, hs, Signal.From]
    | cons ki todo =>
      rw [resetRecords]
      repeat' split
      all_goals simp [Effect.pass, Signal.From]
  case fanOut todo => obtain rfl := Option.some.inj h; cases todo <;> simp [fanOut, Effect.pass]
  case finishForced ks f em =>
    obtain rfl := Option.some.inj h
    rw [finishForced]
    split
    · simp [Effect.pass]
    · cases em <;> simp [Signal.From]
  all_goals
    obtain rfl := Option.some.inj h
    simp only [enterInflight, toSubmitting, slotHeld, runSubmit, taskSucceeded, taskFailed,
      retryCheck, toRetryWait, markRetried, scheduleRetry, requestRetry, toSubmitFailed,
      markCancelled, taskCrashed, releaseSlot, leaveInflight, note, count, unregister, dropContext,
      onRetryRequested, fire, fired, finalizeRetry, finalizeRetryWrite, registerCycle, newContext,
      startLaunch, preSubmitStart, preSubmitRun, preSubmitOk, launchCycle, readBlocked,
      readPrevious, makeTasks, checkFinished, gateReject, vanished]
    repeat' split
    all_goals simp [Effect.pass, Signal.From]

theorem exec_resets (hx : ∀ l, x ≠ .announce l) (h : exec P o c cyc w x = some e) :
    e.signals.filterMap Signal.reset? = [] := by
  refine List.filterMap_eq_nil_iff.mpr fun sig hsig => ?_
  have := exec_from h sig hsig
  cases sig with
  | recordsReset l => exact absurd this (hx l)
  | _ => rfl

/-- A progress shows the number of units counted, and none is shown after the end. -/
theorem exec_progress (hle : cyc.done ≤ cyc.total) (h : exec P o c cyc w x = some e) :
    ∀ p ∈ e.signals.filterMap Signal.progress?, p = (cyc.done, cyc.total) ∧
      cyc.finished = false := by
  intro p hp
  obtain ⟨sig, hsig, heq⟩ := List.mem_filterMap.mp hp
  have := exec_from h sig hsig
  cases sig with
  | progress done total =>
    obtain rfl := Option.some.inj heq
    obtain ⟨hf, rfl, rfl | ⟨rfl, hd⟩⟩ := this
    · exact ⟨rfl, hf⟩
    · exact ⟨by rw [le_antisymm hle hd], hf⟩
  | _ => cases heq

/-- **A cycle that was launched ends in `_finish_if_done`**, with its last progress and whatever is
buffered. -/
theorem exec_finish (hx : x.isPrelude = false) (hf : cyc.finished = false)
    (hf' : e.cyc.finished = true) (h : exec P o c cyc w x = some e) :
    e.cyc.done = cyc.done ∧ e.cyc.changedBuffer = [] ∧ e.signals
      = (if cyc.total ≤ cyc.done then [.progress cyc.total cyc.total] else [])
        ++ batch cyc.changedBuffer ++ [.finished cyc.report] := by
  rcases hq : x.isQuiet with _ | _
  case true =>
    have := (exec_quiet hq h).counters
    simp only [Prod.mk.injEq] at this
    rw [this.2.2.2.2, hf] at hf'
    cases hf'
  cases x
  case finishIfDone b =>
    obtain rfl := Option.some.inj h
    rw [finishIfDone] at hf' ⊢
    split
    case isTrue hc =>
      rw [if_pos hc, Effect.pass, hf] at hf'
      cases hf'
    case isFalse => exact ⟨rfl, rfl, rfl⟩
  case count ks out ch =>
    obtain rfl := Option.some.inj h
    rw [count] at hf'
    split at hf'
    · rw [Effect.pass, hf] at hf'
      cases hf'
    · cases out <;> simp [Cycle.addDone, hf] at hf'
  case fire k =>
    obtain rfl := Option.some.inj h
    rw [fire] at hf'
    split at hf'
    · rw [Effect.pass, hf] at hf'
      cases hf'
    · rename_i hpop
      have := congrArg Cycle.finished (Cycle.popRetry_spec hpop).2.2.2
      simp [Effect.pass, this, hf] at hf'
  case schedule k a =>
    obtain rfl := Option.some.inj h
    simp [scheduleRetry, Effect.pass, Cycle.addRetry, hf] at hf'
  case dropContext =>
    obtain rfl := Option.some.inj h
    simp [dropContext, Effect.pass, hf] at hf'
  case finishForced => cases hx
  all_goals cases hq

/-- Launched code calls for no launch. -/
theorem exec_not_prelude (hx : x.isPrelude = false) (h : exec P o c cyc w x = some e) :
    ∀ code ∈ e.code :: e.spawned, ∀ y ∈ code, y.isPrelude = false := by
  have hlaunch : ∀ y : Instr, y.isLaunch = false → y.isPrelude = false := by
    intro y hy
    by_contra hp
    rw [Instr.isLaunch_of_isPrelude (by simpa using hp)] at hy
    cases hy
  rcases hl : x.isLaunch with _ | _
  · obtain ⟨h₁, h₂⟩ := exec_launched hl h
    exact List.forall_mem_cons.mpr ⟨fun y hy => hlaunch y (h₁ y hy),
      fun code hc y hy => hlaunch y (h₂ code hc y hy)⟩
  · obtain rfl : x = .finishIfDone true := by
      cases x with
      | finishIfDone b => cases b <;> [cases hl; rfl]
      | _ => simp_all [Instr.isLaunch, Instr.isPrelude, Instr.isAhead]
    obtain rfl := Option.some.inj h
    rw [finishIfDone]
    split <;> simp [Effect.pass, Instr.isPrelude, Instr.isAhead]

/-- A launch instruction up to the announcement stays in the launch. -/
theorem exec_prelude (hx : x.isPrelude = true) (hna : ∀ l, x ≠ .announce l)
    (h : exec P o c cyc w x = some e) :
    (∀ y ∈ e.code, (y.isBook = true ∨ y.isPrelude = true) ∧
      (y.isAhead = true → x.isAhead = true) ∧
      ∀ l, y = .announce l → e.code = [.announce l] ∧ e.cyc.finished = false) ∧
    (x.isAhead = true → e.signals.filterMap Signal.batch? = []) ∧
    e.cyc.changedBuffer = cyc.changedBuffer := by
  cases x
  case reset todo b prev l st sk =>
    obtain rfl := Option.some.inj h
    cases todo with
    | nil =>
      refine ⟨?_, fun _ => ?_, rfl⟩
      · by_cases hs : sk = [] <;>
          simp [resetRecords, hs, Instr.isBook, Instr.isPrelude, Instr.isAhead]
      · by_cases hs : st = [] <;> simp [resetRecords, hs, Signal.batch?]
    | cons ki todo =>
      rw [resetRecords]
      repeat' split
      all_goals simp [Effect.pass, Signal.batch?, Instr.isBook, Instr.isPrelude, Instr.isAhead]
  case gateFail ks todo m st =>
    obtain rfl := Option.some.inj h
    cases todo with
    | nil => simp [gateFail, Effect.pass, Instr.isBook, Instr.isPrelude, Instr.isAhead]
    | cons r todo =>
      rw [gateFail]
      split <;> simp [Effect.pass, Instr.isBook, Instr.isPrelude, Instr.isAhead]
  case announce l => exact absurd rfl (hna l)
  case finishForced ks f em =>
    obtain rfl := Option.some.inj h
    rw [finishForced]
    split
    · simp [Effect.pass, Instr.isBook, Instr.isPrelude, Instr.isAhead]
    · cases f <;> simp [Cycle.forceDone, Instr.isBook, Instr.isPrelude, Instr.isAhead]
  case checkFinished l =>
    obtain rfl := Option.some.inj h
    rw [checkFinished]
    split
    · simp [Effect.pass, Signal.batch?]
    · rename_i hf
      simpa [Effect.pass, Instr.isBook, Instr.isPrelude, Instr.isAhead] using hf
  case startLaunch b =>
    obtain rfl := Option.some.inj h
    rw [startLaunch]
    split
    · simp [Effect.pass, Instr.isBook, Instr.isPrelude, Instr.isAhead, Signal.batch?]
    · cases b <;> simp [Effect.pass, Instr.isBook, Instr.isPrelude, Instr.isAhead]
  case register | newContext | preSubmitStart | preSubmitRun | preSubmitOk | launch | readBlocked |
      readPrevious | makeTasks | gateReject =>
    obtain rfl := Option.some.inj h
    simp only [registerCycle, newContext, preSubmitStart, preSubmitRun, preSubmitOk, launchCycle,
      readBlocked, readPrevious, makeTasks, gateReject]
    repeat' split
    all_goals
      simp [Effect.pass, Signal.batch?, Instr.isBook, Instr.isPrelude, Instr.isAhead]
  all_goals cases hx

end Exec

end Lsfmgr.Submit
