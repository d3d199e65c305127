import Mathlib
import Lsfmgr.Machinery.Pool
import Lsfmgr.Machinery.Transition
import Lsfmgr.Monitor.Querier

/-!
# Monitor/Serial — the table of query locks, which cleans itself

The queries of one jobset run one after the other, under a lock that exists only while a query uses
it.  `_serialized_query` has two short sections under the streak lock, one that registers the call
with the lock object of its jobset and one that signs it off, and in between waits for the object,
holds it while the body runs, and lets go of it.

An object made for a jobset stays the one in the table as long as a call is registered with it
(`Sound.current`), hence no second object for the same jobset comes into use beside it.
-/

namespace Lsfmgr.Monitor.Serial

open Machinery Submit

/-- `_QLock` -/
structure QLock where
  locked : Bool := false
  users : ℤ := 0
  deriving DecidableEq

/-- Where a call of `_serialized_query` stands between its two sections. -/
inductive Stage
  /-- At `with lock`. -/
  | waiting
  /-- In the body. -/
  | running
  /-- The body has returned or raised and the lock is released. -/
  | leaving
  deriving DecidableEq

/-- A registered call: `entry` is the lock object it took from the table. -/
structure Call where
  jobsetId : String
  entry : ℕ
  stage : Stage
  deriving DecidableEq

/-- The tables of a querier.  `objects` are the lock objects made so far; an object is known by its
place. -/
structure State where
  queryLocks : Dict String ℕ := ∅
  objects : List QLock := []
  missingStreak : Dict String Streaks := ∅
  calls : List Call := []

inductive Act
  /-- The first section of a call. -/
  | enter (jobsetId : String)
  | acquire (i : ℕ)
  /-- The body takes its streaks out of the table… -/
  | popStreaks (i : ℕ)
  /-- …and puts the new ones in, of which the store decides what is current. -/
  | setStreaks (i : ℕ) (store : InMemoryStore) (streaks : Streaks)
  /-- The body ends. -/
  | leave (i : ℕ) (raised : Bool)
  /-- The section in the `finally` clause. -/
  | signOff (i : ℕ)
  | forget (store : InMemoryStore) (jobsetId : String) (jobKeys : Option (List Key))

namespace State

def updateObject (s : State) (e : ℕ) (f : QLock → QLock) : State :=
  { s with objects := s.objects.modify e f }

def setStage (s : State) (i : ℕ) (c : Call) (stage : Stage) : State :=
  { s with calls := replaceAt s.calls i [{ c with stage }] }

/-- The object of the jobset, a new one if the table has none. -/
def entryOf (s : State) (jobsetId : String) : ℕ × State :=
  match s.queryLocks.get? jobsetId with
  | some e => (e, s)
  | none => (s.objects.length, { s with
      objects := s.objects ++ [{}]
      queryLocks := s.queryLocks.set jobsetId s.objects.length })

/-- The first section of `_serialized_query`. -/
def enter (s : State) (jobsetId : String) : State :=
  let entry := s.entryOf jobsetId
  let s := entry.2.updateObject entry.1 fun o => { o with users := o.users + 1 }
  { s with calls := ⟨jobsetId, entry.1, .waiting⟩ :: s.calls }

/-- The table without the object, if nobody uses it and it still is the one there. -/
def cleaned (s : State) (jobsetId : String) (e : ℕ) : Dict String ℕ :=
  if (∀ o ∈ s.objects[e]?, o.users ≤ 0) ∧ s.queryLocks.get? jobsetId = some e then
    s.queryLocks.erase jobsetId
  else s.queryLocks

/-- The second section of `_serialized_query`. -/
def signOff (s : State) (i : ℕ) (c : Call) : State :=
  let s := s.updateObject c.entry fun o => { o with users := o.users - 1 }
  { s with queryLocks := s.cleaned c.jobsetId c.entry, calls := replaceAt s.calls i [] }

/-- `_pop_streaks` -/
def popStreaks (s : State) (jobsetId : String) : State :=
  { s with missingStreak := s.missingStreak.erase jobsetId }

/-- `_set_streaks` -/
def setStreaks (s : State) (store : InMemoryStore) (jobsetId : String) (streaks : Streaks) :
    State :=
  let streaks := currentStreaks store jobsetId streaks
  { s with missingStreak :=
      if streaks.keys = [] then s.missingStreak.erase jobsetId
      else s.missingStreak.set jobsetId streaks }

/-- `forget` -/
def forget (s : State) (store : InMemoryStore) (jobsetId : String) :
    Option (List Key) → State
  | none => s.popStreaks jobsetId
  | some jobKeys =>
    match s.missingStreak.get? jobsetId with
    | none => s
    | some streaks =>
      let streaks := Monitor.forget store jobsetId streaks (some jobKeys)
      { s with missingStreak :=
          if streaks.keys = [] then s.missingStreak.erase jobsetId
          else s.missingStreak.set jobsetId streaks }

/-- The call at place `i`, if it is at the given stage. -/
def callAt (s : State) (i : ℕ) (stage : Stage) : Option Call :=
  s.calls[i]?.filter fun c => c.stage = stage

def step (s : State) : Act → Option State
  | .enter jobsetId => some (s.enter jobsetId)
  | .acquire i => do
    let c ← s.callAt i .waiting
    let o ← s.objects[c.entry]?
    if o.locked then none
    else return (s.updateObject c.entry fun o => { o with locked := true }).setStage i c .running
  | .popStreaks i => do
    let c ← s.callAt i .running
    return s.popStreaks c.jobsetId
  | .setStreaks i store streaks => do
    let c ← s.callAt i .running
    return s.setStreaks store c.jobsetId streaks
  | .leave i _ => do
    let c ← s.callAt i .running
    return (s.updateObject c.entry fun o => { o with locked := false }).setStage i c .leaving
  | .signOff i => do
    let c ← s.callAt i .leaving
    return s.signOff i c
  | .forget store jobsetId jobKeys => some (s.forget store jobsetId jobKeys)

end State

/-- The querier with any number of calls under way. -/
def system : System State Act where
  init s := s = {}
  step := State.step

/-! ## What the table and the objects say of the calls -/

/-- The call is registered with the object. -/
def Call.uses (e : ℕ) (c : Call) : Bool := c.entry = e

/-- The call holds the lock of the object. -/
def Call.holds (e : ℕ) (c : Call) : Bool := c.entry = e && c.stage = .running

/-- **The counts and locks are those of the registered calls.** -/
structure Registered (s : State) : Prop where
  users : ∀ (e : ℕ) (o : QLock), s.objects[e]? = some o →
    o.users = s.calls.countP (Call.uses e)
  locked : ∀ (e : ℕ) (o : QLock), s.objects[e]? = some o →
    s.calls.countP (Call.holds e) = if o.locked then 1 else 0
  /-- The object of a registered call is the one in the table. -/
  current : ∀ c ∈ s.calls, s.queryLocks.get? c.jobsetId = some c.entry
  made : ∀ js e, s.queryLocks.get? js = some e → e < s.objects.length
  own : ∀ js js' e, s.queryLocks.get? js = some e → s.queryLocks.get? js' = some e → js = js'

/-- **Every object in the table is in use.** -/
structure Sound (s : State) : Prop extends Registered s where
  used : ∀ js e, s.queryLocks.get? js = some e → ∃ c ∈ s.calls, c.entry = e

theorem sound_init : Sound {} where
  users e o h := by simp at h
  locked e o h := by simp at h
  current c h := by cases h
  made js e h := by cases h
  own js js' e h := by cases h
  used js e h := by cases h

/-- The streaks play no part. -/
theorem Sound.congr {s t : State} (h : Sound s) (hq : t.queryLocks = s.queryLocks)
    (ho : t.objects = s.objects) (hc : t.calls = s.calls) : Sound t := by
  obtain ⟨⟨h₁, h₂, h₃, h₄, h₅⟩, h₆⟩ := h
  refine ⟨⟨?_, ?_, ?_, ?_, ?_⟩, ?_⟩
  · rwa [ho, hc]
  · rwa [ho, hc]
  · rwa [hq, hc]
  · rwa [hq, ho]
  · rwa [hq]
  · rwa [hq, hc]

section

variable {s : State} {js : String} {e i : ℕ} {c : Call}

theorem callAt_eq_some {stage : Stage} :
    s.callAt i stage = some c ↔ s.calls[i]? = some c ∧ c.stage = stage := by
  simp [State.callAt, Option.filter_eq_some_iff]

theorem Registered.lt (h : Registered s) (hc : c ∈ s.calls) : c.entry < s.objects.length :=
  h.made _ _ (h.current c hc)

/-- The object a call is given is the one of its jobset from then on. -/
theorem Registered.entryOf (h : Registered s) (js : String) :
    Registered (s.entryOf js).2 ∧ (s.entryOf js).2.calls = s.calls ∧
      (s.entryOf js).2.queryLocks.get? js = some (s.entryOf js).1 ∧
      ∀ js', js' ≠ js → (s.entryOf js).2.queryLocks.get? js' = s.queryLocks.get? js' := by
  rcases hq : s.queryLocks.get? js with _ | e
  · have hnone : ∀ p : Call → Bool, (∀ c, p c = true → c.entry = s.objects.length) →
        s.calls.countP p = 0 := by
      intro p hp
      rw [List.countP_eq_zero]
      intro c hc hpc
      exact absurd (hp c hpc) (h.lt hc).ne
    simp only [State.entryOf, hq]
    refine ⟨⟨?_, ?_, ?_, ?_, ?_⟩, trivial, by simp, ?_⟩
    · intro e o he
      rw [List.getElem?_append] at he
      split at he
      case isTrue => exact h.users e o he
      case isFalse hlt =>
        obtain ⟨h0, rfl⟩ : e - s.objects.length = 0 ∧ {} = o := by
          simpa [List.getElem?_singleton] using he
        have hcount : s.calls.countP (Call.uses e) = 0 :=
          hnone _ fun c hc => by
            have : c.entry = e := of_decide_eq_true hc
            omega
        simp [hcount]
    · intro e o he
      rw [List.getElem?_append] at he
      split at he
      case isTrue => exact h.locked e o he
      case isFalse hlt =>
        obtain ⟨h0, rfl⟩ : e - s.objects.length = 0 ∧ {} = o := by
          simpa [List.getElem?_singleton] using he
        refine hnone _ fun c hc => ?_
        have : c.entry = e := by
          simp only [Call.holds, Bool.and_eq_true, decide_eq_true_eq] at hc
          exact hc.1
        omega
    · intro c hc
      have hne : c.jobsetId ≠ js := by
        rintro rfl
        rw [h.current c hc] at hq
        cases hq
      rw [Dict.get?_set_of_ne _ _ hne]
      exact h.current c hc
    · intro js' e he
      rw [Dict.get?_set] at he
      split at he
      case isTrue => obtain rfl := Option.some.inj he; simp
      case isFalse => have := h.made _ _ he; simp; omega
    · intro js₁ js₂ e h₁ h₂
      rw [Dict.get?_set] at h₁ h₂
      split at h₁ <;> split at h₂
      case isTrue.isTrue e₁ e₂ => rw [e₁, e₂]
      case isTrue.isFalse =>
        obtain rfl := Option.some.inj h₁
        exact absurd (h.made _ _ h₂) (lt_irrefl _)
      case isFalse.isTrue =>
        obtain rfl := Option.some.inj h₂
        exact absurd (h.made _ _ h₁) (lt_irrefl _)
      case isFalse.isFalse => exact h.own _ _ _ h₁ h₂
    · intro js' hne
      rw [Dict.get?_set_of_ne _ _ hne]
  · simp only [State.entryOf, hq]
    exact ⟨h, trivial, trivial, fun _ _ => trivial⟩

/-! ## The steps -/

theorem Sound.enter (h : Sound s) (js : String) : Sound (s.enter js) := by
  obtain ⟨hr, hcalls, hjs, hother⟩ := h.toRegistered.entryOf js
  rw [State.enter]
  generalize s.entryOf js = p at hr hcalls hjs hother
  obtain ⟨e, t⟩ := p
  simp only at hr hcalls hjs hother
  refine ⟨⟨?_, ?_, ?_, ?_, ?_⟩, ?_⟩
  · intro e' o' ho'
    simp only [State.updateObject, List.getElem?_modify] at ho'
    obtain ⟨o, ho, rfl⟩ := Option.map_eq_some_iff.mp ho'
    have := hr.users e' o ho
    split
    case isTrue heq => simp [Call.uses, State.updateObject, this, heq]
    case isFalse hne => simp [Call.uses, State.updateObject, this, hne]
  · intro e' o' ho'
    simp only [State.updateObject, List.getElem?_modify] at ho'
    obtain ⟨o, ho, rfl⟩ := Option.map_eq_some_iff.mp ho'
    have := hr.locked e' o ho
    split <;> simpa [Call.holds, State.updateObject] using this
  · intro c hc
    rcases List.mem_cons.mp hc with rfl | hc
    · exact hjs
    · exact hr.current c hc
  · intro js' e' he'
    simpa [State.updateObject] using hr.made js' e' he'
  · exact hr.own
  · intro js' e' he'
    by_cases hne : js' = js
    · subst hne
      exact ⟨_, List.mem_cons_self, Option.some.inj (hjs.symm.trans he')⟩
    · obtain ⟨c, hc, hce⟩ := h.used js' e' ((hother js' hne).symm.trans he')
      exact ⟨c, List.mem_cons_of_mem _ (hcalls ▸ hc), hce⟩

/-- A call that goes to its next stage, with the lock set accordingly. -/
theorem Sound.setStage (h : Sound s) (hi : s.calls[i]? = some c) {stage : Stage} {b : Bool}
    (hlock : ∀ o, s.objects[c.entry]? = some o →
      (if c.stage = .running then 1 else 0) + (if b then 1 else 0)
        = (if stage = .running then 1 else 0) + (if o.locked then 1 else (0 : ℕ))) :
    Sound ((s.updateObject c.entry fun o => { o with locked := b }).setStage i c stage) := by
  refine ⟨⟨?_, ?_, ?_, ?_, ?_⟩, ?_⟩
  · intro e' o' ho'
    simp only [State.setStage, State.updateObject, List.getElem?_modify] at ho' ⊢
    obtain ⟨o, ho, rfl⟩ := Option.map_eq_some_iff.mp ho'
    have hcount := countP_replaceAt (Call.uses e') hi [{ c with stage }]
    have huse : ([{ c with stage }] : List Call).countP (Call.uses e')
        = [c].countP (Call.uses e') := rfl
    have := h.users e' o ho
    split
    case isTrue => dsimp only; omega
    case isFalse => omega
  · intro e' o' ho'
    simp only [State.setStage, State.updateObject, List.getElem?_modify] at ho' ⊢
    obtain ⟨o, ho, rfl⟩ := Option.map_eq_some_iff.mp ho'
    have hcount := countP_replaceAt (Call.holds e') hi [{ c with stage }]
    have := h.locked e' o ho
    split
    case isTrue heq =>
      subst heq
      have := hlock o ho
      simp [List.countP_cons, Call.holds] at hcount ⊢
      omega
    case isFalse hne =>
      simp [Call.holds, hne] at hcount ⊢
      omega
  · intro c' hc'
    rcases mem_replaceAt hc' with hc' | hc'
    · exact h.current c' hc'
    · obtain rfl := List.mem_singleton.mp hc'
      exact h.current c (List.mem_of_getElem? hi)
  · intro js' e' he'
    simpa [State.updateObject, State.setStage] using h.made js' e' he'
  · exact h.own
  · intro js' e' he'
    obtain ⟨c', hc', hce⟩ := h.used js' e' he'
    by_cases heq : c' = c
    · exact ⟨{ c with stage }, mem_replaceAt_right (List.mem_singleton_self _), heq ▸ hce⟩
    · exact ⟨c', mem_replaceAt_of_ne hi hc' heq, hce⟩

/-- The last user takes the object out of the table, anyone else leaves it there. -/
theorem Sound.signOff (h : Sound s) (hi : s.calls[i]? = some c) (hc : c.stage = .leaving) :
    Sound (s.signOff i c) := by
  have hmem := List.mem_of_getElem? hi
  obtain ⟨o, ho⟩ : ∃ o, s.objects[c.entry]? = some o :=
    ⟨_, List.getElem?_eq_getElem (h.lt hmem)⟩
  have hcount := countP_replaceAt (Call.uses c.entry) hi []
  have hself : [c].countP (Call.uses c.entry) = 1 := by simp [Call.uses]
  have husers := h.users _ _ ho
  -- the objects and the calls are right whether or not the table keeps the object
  have husers' : ∀ (e' : ℕ) (o' : QLock), (s.objects.modify c.entry
      fun o => { o with users := o.users - 1 })[e']? = some o' →
      o'.users = (replaceAt s.calls i []).countP (Call.uses e') ∧
        (replaceAt s.calls i []).countP (Call.holds e') = if o'.locked then 1 else 0 := by
    intro e' o' ho'
    rw [List.getElem?_modify] at ho'
    obtain ⟨o, ho, rfl⟩ := Option.map_eq_some_iff.mp ho'
    have hu := h.users e' o ho
    have hl := h.locked e' o ho
    have hcu := countP_replaceAt (Call.uses e') hi []
    have hch := countP_replaceAt (Call.holds e') hi []
    have hnot : [c].countP (Call.holds e') = 0 := by simp [Call.holds, hc]
    simp only [List.countP_nil] at hcu hch
    split
    case isTrue heq =>
      subst heq
      constructor <;> simp only <;> omega
    case isFalse hne =>
      have hnu : [c].countP (Call.uses e') = 0 := by simp [Call.uses, hne]
      constructor <;> omega
  have hcalls : ∀ c' ∈ replaceAt s.calls i [], s.queryLocks.get? c'.jobsetId = some c'.entry := by
    intro c' hc'
    rcases mem_replaceAt hc' with hc' | hc'
    · exact h.current c' hc'
    · cases hc'
  have hlen : ∀ e', e' < s.objects.length →
      e' < (s.objects.modify c.entry fun o => { o with users := o.users - 1 }).length := by
    intro e' he'
    rwa [List.length_modify]
  have hclean : (s.updateObject c.entry fun o => { o with users := o.users - 1 }).cleaned
      c.jobsetId c.entry
      = if o.users ≤ 1 then s.queryLocks.erase c.jobsetId else s.queryLocks := by
    simp [State.cleaned, State.updateObject, ho, h.current c hmem]
  rw [State.signOff, hclean]
  simp only [List.countP_nil] at hcount
  split
  case isTrue hlast =>
    -- nobody else is registered with the object
    have hzero : (replaceAt s.calls i []).countP (Call.uses c.entry) = 0 := by omega
    rw [List.countP_eq_zero] at hzero
    have hne : ∀ c' ∈ replaceAt s.calls i [], c'.jobsetId ≠ c.jobsetId := by
      intro c' hc' heq
      have := (hcalls c' hc').symm.trans ((congrArg s.queryLocks.get? heq).trans (h.current c hmem))
      exact hzero c' hc' (decide_eq_true (Option.some.inj this))
    refine ⟨⟨fun e' o' ho' => (husers' e' o' ho').1, fun e' o' ho' => (husers' e' o' ho').2,
      ?_, ?_, ?_⟩, ?_⟩
    · intro c' hc'
      simp only
      rw [Dict.get?_erase_of_ne _ (hne c' hc')]
      exact hcalls c' hc'
    · intro js' e' he'
      rw [Dict.get?_erase] at he'
      split at he'
      case isTrue => cases he'
      case isFalse => exact hlen _ (h.made _ _ he')
    · intro js₁ js₂ e' h₁ h₂
      rw [Dict.get?_erase] at h₁ h₂
      split at h₁
      case isTrue => cases h₁
      case isFalse =>
        split at h₂
        case isTrue => cases h₂
        case isFalse => exact h.own _ _ _ h₁ h₂
    · intro js' e' he'
      rw [Dict.get?_erase] at he'
      split at he'
      case isTrue => cases he'
      case isFalse hjs =>
        obtain ⟨c', hc', hce⟩ := h.used _ _ he'
        refine ⟨c', mem_replaceAt_of_ne hi hc' ?_, hce⟩
        rintro rfl
        exact hjs (h.own _ _ _ he' (hce ▸ h.current c' hc'))
  case isFalse hmore =>
    -- someone else is
    have hpos : 0 < (replaceAt s.calls i []).countP (Call.uses c.entry) := by omega
    obtain ⟨c₁, hc₁, huse⟩ := List.countP_pos_iff.mp hpos
    refine ⟨⟨fun e' o' ho' => (husers' e' o' ho').1, fun e' o' ho' => (husers' e' o' ho').2,
      hcalls, fun js' e' he' => hlen _ (h.made _ _ he'), h.own⟩, ?_⟩
    intro js' e' he'
    obtain ⟨c', hc', hce⟩ := h.used _ _ he'
    by_cases heq : c' = c
    · exact ⟨c₁, hc₁, (of_decide_eq_true huse).trans (heq ▸ hce)⟩
    · exact ⟨c', mem_replaceAt_of_ne hi hc' heq, hce⟩

end

/-- **Every step keeps the table sound.** -/
theorem Sound.step {s s' : State} {a : Act} (h : Sound s) (hstep : s.step a = some s') :
    Sound s' := by
  cases a with
  | enter js =>
    obtain rfl := Option.some.inj hstep
    exact h.enter js
  | acquire i =>
    simp only [State.step, Option.bind_eq_bind, Option.bind_eq_some_iff] at hstep
    obtain ⟨c, hc, o, ho, hstep⟩ := hstep
    obtain ⟨hi, hstage⟩ := callAt_eq_some.mp hc
    split at hstep
    case isTrue => cases hstep
    case isFalse hfree =>
      obtain rfl := Option.some.inj hstep
      refine h.setStage hi fun o' ho' => ?_
      obtain rfl := Option.some.inj (ho.symm.trans ho')
      simp [hstage, hfree]
  | popStreaks i =>
    simp only [State.step, Option.bind_eq_bind, Option.bind_eq_some_iff] at hstep
    obtain ⟨c, -, hstep⟩ := hstep
    obtain rfl := Option.some.inj hstep
    exact h.congr rfl rfl rfl
  | setStreaks i store streaks =>
    simp only [State.step, Option.bind_eq_bind, Option.bind_eq_some_iff] at hstep
    obtain ⟨c, -, hstep⟩ := hstep
    obtain rfl := Option.some.inj hstep
    exact h.congr rfl rfl rfl
  | leave i raised =>
    simp only [State.step, Option.bind_eq_bind, Option.bind_eq_some_iff] at hstep
    obtain ⟨c, hc, hstep⟩ := hstep
    obtain ⟨hi, hstage⟩ := callAt_eq_some.mp hc
    obtain rfl := Option.some.inj hstep
    refine h.setStage hi fun o ho => ?_
    -- the running call holds the lock
    have hpos : 0 < s.calls.countP (Call.holds c.entry) :=
      List.countP_pos_iff.mpr ⟨c, List.mem_of_getElem? hi, by simp [Call.holds, hstage]⟩
    rw [h.locked _ _ ho] at hpos
    have hlocked : o.locked = true := by
      by_contra hno
      simp [hno] at hpos
    simp [hstage, hlocked]
  | signOff i =>
    simp only [State.step, Option.bind_eq_bind, Option.bind_eq_some_iff] at hstep
    obtain ⟨c, hc, hstep⟩ := hstep
    obtain ⟨hi, hstage⟩ := callAt_eq_some.mp hc
    obtain rfl := Option.some.inj hstep
    exact h.signOff hi hstage
  | forget store js jobKeys =>
    obtain rfl := Option.some.inj hstep
    rcases jobKeys with _ | jobKeys
    · exact h.congr rfl rfl rfl
    · simp only [State.forget]
      split
      · exact h
      · exact h.congr rfl rfl rfl

theorem sound {s : State} (h : system.Reachable s) : Sound s :=
  h.invariant (fun _ hs => hs ▸ sound_init) fun _ _ _ _ hI _ hstep => hI.step hstep

/-! ## What the table promises -/

/-- The calls of one jobset at one of the given stages. -/
def State.count (s : State) (js : String) (stages : List Stage) : ℕ :=
  s.calls.countP fun c => c.jobsetId = js ∧ c.stage ∈ stages

/-- A call is registered with the object of its jobset and no other. -/
theorem Sound.entry_iff {s : State} (h : Sound s) {js : String} {e : ℕ}
    (hjs : s.queryLocks.get? js = some e) {c : Call} (hc : c ∈ s.calls) :
    c.entry = e ↔ c.jobsetId = js := by
  constructor
  · rintro rfl
    exact h.own _ _ _ (h.current c hc) hjs
  · rintro rfl
    exact Option.some.inj ((h.current c hc).symm.trans hjs)

/-- **At most one body per jobset; the table counts the calls.** -/
structure Serialized (s : State) : Prop where
  exclusive : ∀ js, s.count js [.running] ≤ 1
  /-- The object of a jobset counts the calls that are registered for it: those waiting for its
  lock, the one holding it, and those that let go of it and have not signed off. -/
  users : ∀ js e, s.queryLocks.get? js = some e → ∃ o, s.objects[e]? = some o ∧
    o.users = s.count js [.waiting, .running, .leaving]
  /-- The table has an object for exactly the jobsets with a registered call. -/
  keys : ∀ js, js ∈ s.queryLocks.keys ↔ ∃ c ∈ s.calls, c.jobsetId = js
  empty : s.calls = [] → s.queryLocks = ∅

theorem serialized {s : State} (h : system.Reachable s) : Serialized s := by
  have hs := sound h
  have hkeys : ∀ js, js ∈ s.queryLocks.keys ↔ ∃ c ∈ s.calls, c.jobsetId = js := by
    intro js
    rw [Dict.mem_keys]
    constructor
    · rintro ⟨e, he⟩
      obtain ⟨c, hc, hce⟩ := hs.used _ _ he
      exact ⟨c, hc, (hs.entry_iff he hc).mp hce⟩
    · rintro ⟨c, hc, rfl⟩
      exact ⟨_, hs.current c hc⟩
  refine ⟨?_, ?_, hkeys, ?_⟩
  · intro js
    rcases hjs : s.queryLocks.get? js with _ | e
    · have : s.count js [.running] = 0 := by
        rw [State.count, List.countP_eq_zero]
        intro c hc hcjs
        have hcjs : c.jobsetId = js ∧ c.stage ∈ [Stage.running] := of_decide_eq_true hcjs
        exact Dict.get?_eq_none.mp hjs ((hkeys js).mpr ⟨c, hc, hcjs.1⟩)
      omega
    · obtain ⟨o, ho⟩ : ∃ o, s.objects[e]? = some o :=
        ⟨_, List.getElem?_eq_getElem (hs.made _ _ hjs)⟩
      have hcongr : s.count js [.running] = s.calls.countP (Call.holds e) := by
        refine List.countP_congr fun c hc => ?_
        simp [Call.holds, hs.entry_iff hjs hc]
      rw [hcongr, hs.locked e o ho]
      split <;> omega
  · intro js e hjs
    obtain ⟨o, ho⟩ : ∃ o, s.objects[e]? = some o :=
      ⟨_, List.getElem?_eq_getElem (hs.made _ _ hjs)⟩
    refine ⟨o, ho, ?_⟩
    rw [hs.users e o ho]
    congr 1
    refine List.countP_congr fun c hc => ?_
    have : c.stage ∈ [Stage.waiting, .running, .leaving] := by
      rcases c.stage <;> simp
    simp [Call.uses, hs.entry_iff hjs hc, this]
  · intro hnil
    have hnone : s.queryLocks.keys = [] := by
      rw [List.eq_nil_iff_forall_not_mem]
      intro js hjs
      obtain ⟨c, hc, -⟩ := (hkeys js).mp hjs
      rw [hnil] at hc
      cases hc
    exact Dict.ext_entries (List.map_eq_nil_iff.mp hnone)

/-- Three queries of one jobset and one of another; the first has been forgotten about and its body
has raised, the second runs. -/
def overlapping : List Act :=
  [.enter "js", .enter "other", .acquire 1, .enter "js", .forget {} "js" none, .leave 2 true,
    .acquire 0, .enter "js"]

theorem serialized_overlapping : ∃ s, system.run {} overlapping = some s ∧
    s.count "js" [.waiting] = 1 ∧ s.count "js" [.running] = 1 ∧ Serialized s := by
  have hrun : (system.run {} overlapping).bind (fun s =>
      if s.count "js" [.waiting] = 1 ∧ s.count "js" [.running] = 1 then some () else none)
      = some () := by decide +kernel
  obtain ⟨s, hs, hrest⟩ := Option.bind_eq_some_iff.mp hrun
  obtain ⟨⟨hwaiting, hrunning⟩, -⟩ := Option.ite_none_right_eq_some.mp hrest
  exact ⟨s, hs, hwaiting, hrunning, serialized (System.reachable_of_run (.init rfl) hs)⟩

/-- A call that has released the lock stays counted until it signs off. -/
theorem not_users_holdingOrWaiting : ¬ ∀ s, system.Reachable s → ∀ js e o,
    s.queryLocks.get? js = some e → s.objects[e]? = some o →
      o.users = s.count js [.waiting, .running] := by
  intro h
  have hrun : (system.run {} [.enter "js", .acquire 0, .leave 0 false]).bind (fun s =>
      if s.queryLocks.get? "js" = some 0 ∧ s.objects[0]? = some ⟨false, 1⟩ ∧
          s.count "js" [.waiting, .running] = 0 then some () else none) = some () := by
    decide +kernel
  obtain ⟨s, hs, hrest⟩ := Option.bind_eq_some_iff.mp hrun
  obtain ⟨⟨hlock, hobject, hcount⟩, -⟩ := Option.ite_none_right_eq_some.mp hrest
  have := h s (System.reachable_of_run (.init rfl) hs) "js" 0 _ hlock hobject
  simp [hcount] at this

end Lsfmgr.Monitor.Serial
