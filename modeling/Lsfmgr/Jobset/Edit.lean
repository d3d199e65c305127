import Mathlib
import Lsfmgr.Jobset.Quiet

/-!
# Jobset/Edit — job edits are all-or-nothing

Every reason to refuse an edit (`EditRefused`) is found before the first write, whatever the policy
and wherever in the batch it stands; from the first write on nothing raises, and the loop is a list
of writes to distinct keys (`each_editOne`).  A key that is no string is data here: Python does not
keep it out of a record.
-/

namespace Lsfmgr

open Machinery

namespace Jobset

open InMemoryStore (Became Settled)

/-! ## The records given -/

/-- A record as the caller gives it: its key may be something other than a string, which then prints
as `keyRepr`. -/
inductive Given
  | keyed (record : JobRecord)
  | unkeyed (jobsetId keyRepr : String)

def Given.jobsetId : Given → String
  | keyed record => record.jobsetId
  | unkeyed jobsetId _ => jobsetId

def Given.key? : Given → Option String
  | keyed record => some record.jobKey
  | unkeyed .. => none

/-- `_check_records` with its `isinstance` test; the records when all of them pass. -/
def checkGiven (jobsetId : String) : List String → List Given → Except ManagerError (List JobRecord)
  | _, [] => .ok []
  | seen, .keyed rec :: given =>
    if rec.jobsetId ≠ jobsetId then .error (.wrongJobset rec.jobsetId jobsetId rec.jobKey)
    else if isBlank rec.jobKey then .error (.blankKey rec.jobKey)
    else if rec.jobKey ∈ seen then .error (.repeatedKey rec.jobKey)
    else (checkGiven jobsetId (rec.jobKey :: seen) given).map (rec :: ·)
  | _, .unkeyed jsid keyRepr :: _ =>
    if jsid ≠ jobsetId then .error (.wrongJobset jsid jobsetId keyRepr)
    else .error (.blankKey keyRepr)

/-- `local_edit_jobs` on what the caller gives.  The check reads its arguments only, so it can be
evaluated first; it raises after the jobset was looked up. -/
def localEditGiven (now : Time) (jobsetId : String) (given : List Given) (policy : String)
    (force : Bool) : Manager (List JobRecord) :=
  match checkGiven jobsetId [] given with
  | .ok records => localEditJobs now jobsetId records policy force
  | .error e =>
    match Policy.ofName? policy with
    | none => .raise (.unknownPolicy policy)
    | some _ => do
      let _ ← query fun s => s.getJobset jobsetId
      .raise e

/-! ## What an edit may do -/

/-- A record that no jobset but its own takes, or that has no usable key. -/
def Given.Malformed (js : String) (g : Given) : Prop :=
  g.jobsetId ≠ js ∨ ∀ k, g.key? = some k → isBlank k = true

instance (js : String) (g : Given) : Decidable (g.Malformed js) := by
  refine @instDecidableOr _ _ inferInstance ?_
  exact decidable_of_iff (∀ k ∈ g.key?, isBlank k = true) Iff.rfl

/-- **Why an edit is refused.** -/
inductive EditRefused (s : InMemoryStore) (js : String) (policy : Policy) (given : List Given)
    (force : Bool) : Prop
  | missing : js ∉ s.jobsets.keys → EditRefused s js policy given force
  | malformed {g : Given} : g ∈ given → g.Malformed js → EditRefused s js policy given force
  | repeated : ¬(given.filterMap Given.key?).Nodup → EditRefused s js policy given force
  | existing {rec : JobRecord} : policy = .add → .keyed rec ∈ given →
      (s.job? js rec.jobKey).isSome → EditRefused s js policy given force
  | absent {rec : JobRecord} : policy = .replace → .keyed rec ∈ given →
      s.job? js rec.jobKey = none → EditRefused s js policy given force
  | active {rec old : JobRecord} : force = false → .keyed rec ∈ given →
      s.job? js rec.jobKey = some old → old.state.isInactive = false →
      EditRefused s js policy given force

/-- The new content of a key: over an old record it has the next revision. -/
def edited (now : Time) : JobRecord × Option JobRecord → JobRecord
  | (rec, some old) => { rec with updatedAt := some now, revision := old.revision + 1 }
  | (rec, none) => { rec with updatedAt := some (rec.updatedAt.getD now) }

/-- **What an edit does**: every named key has its new content, keys that were there stay in their
place, new ones follow in the order given, nothing else changes, and the count is the number of
records. -/
structure Edited (now : Time) (s : InMemoryStore) (js : String) (records out : List JobRecord)
    (s' : InMemoryStore) : Prop where
  returned : out = records.map fun rec => edited now (rec, s.job? js rec.jobKey)
  settled : Settled s s' js (s'.jobsOf js)
  order : (s'.jobsOf js).keys = (s.jobsOf js).keys ++
    (records.map (·.jobKey)).filter (· ∉ (s.jobsOf js).keys)
  written : ∀ rec ∈ records, s'.job? js rec.jobKey = some (edited now (rec, s.job? js rec.jobKey))
  kept : ∀ k, k ∉ records.map (·.jobKey) → s'.job? js k = s.job? js k

/-! ## The checks -/

section Checks

variable {js : String}

/-- **The check passes exactly for distinct usable keys** in the right jobset. -/
theorem checkGiven_cases (js : String) (seen : List String) (given : List Given) :
    (∃ records, checkGiven js seen given = .ok records ∧ given = records.map .keyed ∧
        checkRecords js seen records = .ok ()) ∨
      ∃ e, checkGiven js seen given = .error e ∧ ((∃ g ∈ given, g.Malformed js) ∨
        ¬(given.filterMap Given.key?).Nodup ∨ ∃ k ∈ given.filterMap Given.key?, k ∈ seen) := by
  induction given generalizing seen with
  | nil => exact .inl ⟨[], rfl, rfl, rfl⟩
  | cons g given ih =>
    match g with
    | .unkeyed jsid keyRepr =>
      refine .inr ?_
      simp only [checkGiven]
      split
      · exact ⟨_, rfl, .inl ⟨_, List.mem_cons_self, .inr fun k hk => by cases hk⟩⟩
      · exact ⟨_, rfl, .inl ⟨_, List.mem_cons_self, .inr fun k hk => by cases hk⟩⟩
    | .keyed rec =>
      simp only [checkGiven]
      split
      case isTrue hjs => exact .inr ⟨_, rfl, .inl ⟨_, List.mem_cons_self, .inl hjs⟩⟩
      case isFalse hjs =>
        split
        case isTrue hb =>
          exact .inr ⟨_, rfl, .inl ⟨_, List.mem_cons_self,
            .inr fun k hk => by obtain rfl := Option.some.inj hk; exact hb⟩⟩
        case isFalse hb =>
          split
          case isTrue hseen =>
            exact .inr ⟨_, rfl, .inr (.inr ⟨rec.jobKey, by simp [Given.key?], hseen⟩)⟩
          case isFalse hseen =>
            obtain ⟨records, hok, rfl, hrec⟩ | ⟨e, herr, hwhy⟩ := ih (rec.jobKey :: seen)
            · exact .inl ⟨rec :: records, by rw [hok]; rfl, rfl, by
                simp only [checkRecords, if_neg hjs, hb, Bool.false_eq_true, if_false,
                  if_neg hseen, hrec]⟩
            · refine .inr ⟨e, by rw [herr]; rfl, ?_⟩
              have hkeys : (Given.keyed rec :: given).filterMap Given.key?
                  = rec.jobKey :: given.filterMap Given.key? := rfl
              rw [hkeys, List.nodup_cons]
              rcases hwhy with ⟨g, hg, hm⟩ | hnd | ⟨k, hk, hkin⟩
              · exact .inl ⟨g, List.mem_cons_of_mem _ hg, hm⟩
              · exact .inr (.inl fun h => hnd h.2)
              · rcases List.mem_cons.mp hkin with rfl | hkin
                · exact .inr (.inl fun h => h.1 hk)
                · exact .inr (.inr ⟨k, List.mem_cons_of_mem _ hk, hkin⟩)

theorem checkRecords_usable {seen : List String} {records : List JobRecord}
    (h : checkRecords js seen records = .ok ()) : ∀ rec ∈ records, isBlank rec.jobKey = false := by
  induction records generalizing seen with
  | nil => simp
  | cons rec records ih =>
    rw [checkRecords] at h
    split at h
    case isTrue => cases h
    case isFalse =>
      split at h
      case isTrue => cases h
      case isFalse hb =>
        split at h
        case isTrue => cases h
        case isFalse => exact List.forall_mem_cons.mpr ⟨by simpa using hb, ih h⟩

/-- **The plan is made unless the policy forbids a record.** -/
theorem editPlan_cases (js : String) (policy : Policy) (byKey : Dict String JobRecord)
    (records : List JobRecord) :
    ((∃ plan, editPlan js policy byKey records = .ok plan) ∧ ∀ rec ∈ records,
        ¬(policy = .add ∧ (byKey.get? rec.jobKey).isSome) ∧
          ¬(policy = .replace ∧ byKey.get? rec.jobKey = none)) ∨
      ∃ e, editPlan js policy byKey records = .error e ∧ ∃ rec ∈ records,
        (policy = .add ∧ (byKey.get? rec.jobKey).isSome) ∨
          (policy = .replace ∧ byKey.get? rec.jobKey = none) := by
  induction records with
  | nil => exact .inl ⟨⟨[], rfl⟩, by simp⟩
  | cons rec records ih =>
    simp only [editPlan]
    split
    case isTrue hadd => exact .inr ⟨_, rfl, rec, List.mem_cons_self, .inl hadd⟩
    case isFalse hadd =>
      split
      case isTrue hrep => exact .inr ⟨_, rfl, rec, List.mem_cons_self, .inr hrep⟩
      case isFalse hrep =>
        obtain ⟨⟨plan, hplan⟩, hall⟩ | ⟨e, he, r, hr, hwhy⟩ := ih
        · exact .inl ⟨⟨(rec, byKey.get? rec.jobKey) :: plan, by rw [hplan]; rfl⟩,
            List.forall_mem_cons.mpr ⟨⟨hadd, hrep⟩, hall⟩⟩
        · exact .inr ⟨e, by rw [he]; rfl, r, List.mem_cons_of_mem _ hr, hwhy⟩

/-- The guard lets the plan through unless it replaces an active record. -/
theorem activeKeys_eq_nil {olds : List JobRecord} :
    activeKeys olds = [] ↔ ∀ r ∈ olds, r.state.isInactive = true := by
  rw [activeKeys, List.map_eq_nil_iff, List.filter_eq_nil_iff]
  simp

end Checks

/-! ## The writes -/

section Writes

variable {s : InMemoryStore} {js : String}

/-- **One edit alone**: a replacement in place, an addition at the end. -/
theorem editOne_quiet (now : Time) (h : s.Represented) (hjs : js ∈ s.jobsets.keys)
    {p : JobRecord × Option JobRecord} (hown : p.1.jobsetId = js)
    (hold : s.job? js p.1.jobKey = p.2) :
    ∃ s', editOne now p (quiet s) = (.ok (edited now p), quiet s') ∧
      Became s s' js ((s.jobsOf js).set p.1.jobKey (edited now p)) := by
  subst hown
  obtain ⟨rec, _ | old⟩ := p
  · obtain ⟨s', hs', hb⟩ := InMemoryStore.storeAddJob_became now h hjs hold
    exact ⟨s', update_ok hs', hb⟩
  · obtain ⟨s', hs', hb⟩ := InMemoryStore.updateJob_became now h hold
    exact ⟨s', update_ok hs', hb⟩

/-- **The loop never raises**: it is a list of writes to distinct keys. -/
theorem each_editOne (now : Time) (h : s.Represented) (hjs : js ∈ s.jobsets.keys)
    {plan : List (JobRecord × Option JobRecord)} (hnd : (plan.map (·.1.jobKey)).Nodup)
    (hplan : ∀ p ∈ plan, p.1.jobsetId = js ∧ s.job? js p.1.jobKey = p.2) :
    ∃ s', Prog.each (editOne now) plan (quiet s) = (.ok (plan.map (edited now)), quiet s') ∧
      Became s s' js (plan.foldl (fun d p => d.set p.1.jobKey (edited now p)) (s.jobsOf js)) := by
  induction plan generalizing s with
  | nil => exact ⟨s, rfl, Became.refl h (h.placed.jobs_get? hjs)⟩
  | cons p plan ih =>
    rw [List.map_cons, List.nodup_cons] at hnd
    obtain ⟨⟨hown, hold⟩, hrest⟩ := List.forall_mem_cons.mp hplan
    obtain ⟨s₁, hs₁, hb₁⟩ := editOne_quiet now h hjs hown hold
    obtain ⟨s', hs', hb'⟩ := ih (s := s₁) hb₁.represented (by rw [hb₁.jobsets]; exact hjs) hnd.2
      fun q hq => by
        have hne : q.1.jobKey ≠ p.1.jobKey := fun heq => hnd.1 (List.mem_map.mpr ⟨q, hq, heq⟩)
        refine ⟨(hrest q hq).1, ?_⟩
        rw [hb₁.job?, Dict.get?_set_of_ne _ _ hne, InMemoryStore.get?_jobsOf]
        exact (hrest q hq).2
    refine ⟨s', ?_, ?_⟩
    · rw [Prog.each, bind_ok hs₁, bind_ok hs']
      rfl
    · rw [hb₁.jobsOf, if_pos rfl] at hb'
      exact hb₁.trans hb'

/-- **What the loop leaves**, with the count set right. -/
theorem edited_of_settled {now : Time} {records : List JobRecord} {s' : InMemoryStore}
    (hnd : (records.map (·.jobKey)).Nodup) (hs : Settled s s' js
      ((records.map fun rec => (rec, s.job? js rec.jobKey)).foldl
        (fun d p => d.set p.1.jobKey (edited now p)) (s.jobsOf js))) :
    Edited now s js records (records.map fun rec => edited now (rec, s.job? js rec.jobKey)) s' := by
  have hd := hs.jobsOf js
  rw [if_pos rfl] at hd
  have hread : ∀ k, s'.job? js k
      = ((records.reverse.find? (·.jobKey = k)).map fun rec =>
          edited now (rec, s.job? js rec.jobKey)).or (s.job? js k) := by
    intro k
    rw [← InMemoryStore.get?_jobsOf, hd, List.foldl_map, Dict.get?_foldl_set (·.jobKey)
      (fun rec => edited now (rec, s.job? js rec.jobKey)), InMemoryStore.get?_jobsOf]
  refine ⟨rfl, by rwa [hd], ?_, fun rec hrec => ?_, fun k hk => ?_⟩
  · rw [hd, List.foldl_map]
    exact Dict.keys_foldl_set (fun rec : JobRecord => rec.jobKey) _ hnd _
  · have hrev : (records.reverse.map (·.jobKey)).Nodup := by
      rw [List.map_reverse]
      exact List.nodup_reverse.mpr hnd
    have hfind := find?_eq_some_of_nodup (fun r : JobRecord => r.jobKey) hrev
      (List.mem_reverse.mpr hrec)
    rw [hread, hfind]
    rfl
  · have hfind : records.reverse.find? (·.jobKey = k) = none := by
      rw [List.find?_eq_none]
      intro rec hrec heq
      exact hk (List.mem_map.mpr ⟨rec, List.mem_reverse.mp hrec, by simpa using heq⟩)
    rw [hread, hfind]
    rfl

end Writes

/-! ## Every edit -/

theorem Policy.ofName?_name (policy : Policy) : Policy.ofName? policy.name = some policy := by
  cases policy <;> decide

section Edits

variable {s : InMemoryStore} {js : String}

/-- **An edit of acceptable records** is refused for the jobset, the policy or an active record, or
goes through. -/
theorem localEditJobs_cases (now : Time) (h : s.Represented) (hn : s.Named)
    {records : List JobRecord} (hrec : checkRecords js [] records = .ok ()) (policy : Policy)
    (force : Bool) :
    (∃ e, localEditJobs now js records policy.name force (quiet s) = (.error e, quiet s) ∧
        EditRefused s js policy (records.map .keyed) force) ∨
      ∃ out s', localEditJobs now js records policy.name force (quiet s) = (.ok out, quiet s') ∧
        ¬EditRefused s js policy (records.map .keyed) force ∧ Edited now s js records out s' := by
  obtain ⟨hown, hnd, -⟩ := checkRecords_ok hrec
  have hkeyed : ∀ {rec}, rec ∈ records → Given.keyed rec ∈ records.map Given.keyed :=
    fun hr => List.mem_map_of_mem hr
  simp only [localEditJobs, Policy.ofName?_name]
  by_cases hjs : js ∈ s.jobsets.keys
  case neg => exact .inl ⟨_, bind_error (query_error (getJobset_error hjs)), .missing hjs⟩
  obtain ⟨r, hr⟩ := Dict.mem_keys.mp hjs
  rw [bind_ok (query_ok (getJobset_ok.mpr hr)), hrec, bind_ok (check_quiet _ _),
    bind_ok (lookup_quiet s js _)]
  generalize hby : s.getJobsByKeys js (records.map (·.jobKey)) = byKey
  have hget : ∀ rec ∈ records, byKey.get? rec.jobKey = s.job? js rec.jobKey := fun rec hr => by
    rw [← hby, InMemoryStore.get?_getJobsByKeys s _ (List.mem_map_of_mem hr)]
  obtain ⟨⟨plan, hplan⟩, hpolicy⟩ | ⟨e, he, rec, hr, hwhy⟩ :=
    editPlan_cases js policy byKey records
  case inr =>
    refine .inl ⟨e, by rw [he]; exact bind_error rfl, ?_⟩
    rw [hget rec hr] at hwhy
    exact hwhy.elim (fun hc => .existing hc.1 (hkeyed hr) hc.2)
      fun hc => .absent hc.1 (hkeyed hr) hc.2
  have hpl : plan = records.map fun rec => (rec, s.job? js rec.jobKey) :=
    (editPlan_ok hplan).trans (List.map_congr_left fun rec hr => by rw [hget rec hr])
  rw [hplan, bind_ok (check_quiet _ _)]
  have holds : ∀ old, old ∈ plan.filterMap Prod.snd ↔
      ∃ rec ∈ records, s.job? js rec.jobKey = some old := fun old => by
    rw [hpl]
    simp
  split
  case isTrue hbusy =>
    have : ∃ old ∈ plan.filterMap Prod.snd, old.state.isInactive = false := by
      by_contra hno
      push Not at hno
      exact hbusy.1 (activeKeys_eq_nil.mpr fun old ho => by simpa using hno old ho)
    obtain ⟨old, ho, hact⟩ := this
    obtain ⟨rec, hr, hold⟩ := (holds old).mp ho
    exact .inl ⟨_, rfl, .active hbusy.2 (hkeyed hr) hold hact⟩
  case isFalse hbusy =>
    have hkeys : (plan.map (·.1.jobKey)).Nodup := by
      rw [hpl, List.map_map]
      exact hnd
    have hplace : ∀ p ∈ plan, p.1.jobsetId = js ∧ s.job? js p.1.jobKey = p.2 := by
      rw [hpl]
      intro p hp
      obtain ⟨rec, hr, rfl⟩ := List.mem_map.mp hp
      exact ⟨hown rec hr, rfl⟩
    obtain ⟨s₁, hs₁, hb₁⟩ := each_editOne now h hjs hkeys hplace
    obtain ⟨s', hs', hset⟩ := syncIntendedCount_settled hb₁ hn hjs
    rw [bind_ok hs₁, bind_ok hs']
    subst hpl
    refine .inr ⟨_, s', rfl, ?_, ?_⟩
    · rintro (hc | ⟨hg, hm⟩ | hc | ⟨ha, hg, hc⟩ | ⟨ha, hg, hc⟩ | ⟨hf, hg, hc, hact⟩)
      · exact hc hjs
      · obtain ⟨rec, hr, rfl⟩ := List.mem_map.mp hg
        rcases hm with hm | hm
        · exact hm (hown rec hr)
        · have := checkRecords_usable hrec rec hr
          rw [hm rec.jobKey rfl] at this
          cases this
      · exact hc (by rw [List.filterMap_map]; simpa [Function.comp_def, Given.key?] using hnd)
      · obtain ⟨rec, hr, heq⟩ := List.mem_map.mp hg
        obtain rfl := Given.keyed.inj heq
        exact (hpolicy rec hr).1 ⟨ha, by rw [hget rec hr]; exact hc⟩
      · obtain ⟨rec, hr, heq⟩ := List.mem_map.mp hg
        obtain rfl := Given.keyed.inj heq
        exact (hpolicy rec hr).2 ⟨ha, by rw [hget rec hr]; exact hc⟩
      · obtain ⟨rec, hr, heq⟩ := List.mem_map.mp hg
        obtain rfl := Given.keyed.inj heq
        refine hbusy ⟨fun hnil => ?_, hf⟩
        have := activeKeys_eq_nil.mp hnil _ ((holds _).mpr ⟨rec, hr, hc⟩)
        rw [hact] at this
        cases this
    · rw [List.map_map]
      exact edited_of_settled hnd hset

end Edits

/-- **Job edits are all-or-nothing**, from every store that operations can lead to, with every
policy, list of records and force flag: an edit raises exactly for a reason of `EditRefused`, and
then it changes nothing; otherwise it does all of `Edited`. -/
theorem edit_all_or_nothing (ops : List InMemoryStore.Op) (now : Time) (js : String)
    (given : List Given) (policy : Policy) (force : Bool) :
    match localEditGiven now js given policy.name force (quiet (InMemoryStore.afterOps ops)) with
    | (.error _, w) => EditRefused (InMemoryStore.afterOps ops) js policy given force ∧
        w.store = InMemoryStore.afterOps ops
    | (.ok out, w) => ¬EditRefused (InMemoryStore.afterOps ops) js policy given force ∧
        ∃ records, given = records.map .keyed ∧
          Edited now (InMemoryStore.afterOps ops) js records out w.store := by
  have h := InMemoryStore.represented_afterOps ops
  have hn := InMemoryStore.named_afterOps ops
  generalize InMemoryStore.afterOps ops = s at h hn
  obtain ⟨records, hok, rfl, hrec⟩ | ⟨e, he, hwhy⟩ := checkGiven_cases js [] given
  · have hrun : localEditGiven now js (records.map .keyed) policy.name force
        = localEditJobs now js records policy.name force := by
      rw [localEditGiven, hok]
    rw [hrun]
    obtain ⟨e, he, hwhy⟩ | ⟨out, s', hout, hno, hed⟩ :=
      localEditJobs_cases now h hn hrec policy force
    · rw [he]
      exact ⟨hwhy, rfl⟩
    · rw [hout]
      exact ⟨hno, records, rfl, hed⟩
  · have hrefused : EditRefused s js policy given force := by
      rcases hwhy with ⟨g, hg, hm⟩ | hnd | ⟨k, -, hk⟩
      · exact .malformed hg hm
      · exact .repeated hnd
      · cases hk
    simp only [localEditGiven, he, Policy.ofName?_name]
    rcases hj : s.getJobset js with e' | r
    · rw [bind_error (query_error hj)]
      exact ⟨hrefused, rfl⟩
    · rw [bind_ok (query_ok hj)]
      exact ⟨hrefused, rfl⟩

end Jobset

end Lsfmgr
