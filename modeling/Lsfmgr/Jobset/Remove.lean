import Mathlib
import Lsfmgr.Jobset.Quiet

/-!
# Jobset/Remove — job removal is all-or-nothing

A ref names a job by its key or by its job id; the two kinds are looked up along two paths, which
agree on what a ref names (`named?`).  The loop over the refs keeps each job once, at its first
mention (`resolveLoop_cases`), so that the second lookup under the lock finds them all and the batch
delete skips none.
-/

namespace Lsfmgr

open Machinery

namespace Jobset

open InMemoryStore (Became Settled)

/-! ## References -/

/-- A job as the caller names it. -/
inductive Ref
  | key (jobKey : String)
  | id (jobId : ℤ)
  deriving DecidableEq, Repr

def Ref.isId : Ref → Bool
  | key _ => false
  | id _ => true

def Ref.key? : Ref → Option String
  | key k => some k
  | id _ => none

/-- `str(ref)` -/
def Ref.str : Ref → String
  | key k => k
  | id n => toString n

/-- The record of a parent job under its job id; an array element shares the id of its parent. -/
def parentEntry (r : JobRecord) : Option (ℤ × JobRecord) :=
  match r.jobId, r.arrayIndex with
  | some n, none => some (n, r)
  | _, _ => none

/-- `by_key`: the last record of a key. -/
def indexByKey (jobs : List JobRecord) : Dict String JobRecord :=
  jobs.foldl (fun d r => d.set r.jobKey r) ∅

/-- `by_jid` -/
def indexByJobId (jobs : List JobRecord) : Dict ℤ JobRecord :=
  (jobs.filterMap parentEntry).foldl (fun d e => d.set e.1 e.2) ∅

/-- What a ref that names nothing raises. -/
def unnamed (jobsetId : String) (jobs : List JobRecord) (ref : Ref) : ManagerError :=
  match ref with
  | .key k => .jobNotFound jobsetId k
  | .id n =>
    if jobs.any fun r => r.jobId.map (fun m : ℕ => (m : ℤ)) = some n then .onlyElements n
    else .jobNotFound jobsetId (Ref.id n).str

/-- The loop of `resolve_refs`; `seen` are the keys of the jobs so far. -/
def resolveLoop (jobsetId : String) (jobs : List JobRecord) (lookup : Ref → Option JobRecord) :
    List String → List Ref → Except ManagerError (List JobRecord)
  | _, [] => .ok []
  | seen, ref :: refs =>
    match lookup ref with
    | none => .error (unnamed jobsetId jobs ref)
    | some rec =>
      if rec.jobKey ∈ seen then resolveLoop jobsetId jobs lookup seen refs
      else (resolveLoop jobsetId jobs lookup (rec.jobKey :: seen) refs).map (rec :: ·)

def lookupIn (byKey : Dict String JobRecord) (byJobId : Dict ℤ JobRecord) : Ref → Option JobRecord
  | .key k => byKey.get? k
  | .id n => byJobId.get? n

/-- `resolve_refs`: all jobs are read as soon as one ref is a job id, and the named ones only
otherwise. -/
def resolveRefs (jobsetId : String) (refs : List Ref) : Manager (List JobRecord) := do
  let _ ← query fun s => s.getJobset jobsetId
  if refs.any Ref.isId then do
    let jobs ← query fun s => s.getJobs jobsetId
    .ofExcept (resolveLoop jobsetId jobs (lookupIn (indexByKey jobs) (indexByJobId jobs)) [] refs)
  else do
    let byKey ← query fun s => .ok (s.getJobsByKeys jobsetId (refs.filterMap Ref.key?))
    .ofExcept (resolveLoop jobsetId [] (lookupIn byKey ∅) [] refs)

/-- `remove_jobs` of the manager. -/
def removeJobs (jobsetId : String) (refs : List Ref) (force : Bool) : Manager (List JobRecord) := do
  let targets ← resolveRefs jobsetId refs
  localRemoveJobs jobsetId (targets.map (·.jobKey)) force

/-! ## What a removal may do -/

/-- The record a ref names: the one at the key, or the parent with the job id. -/
def named? (s : InMemoryStore) (js : String) : Ref → Option JobRecord
  | .key k => s.job? js k
  | .id n => ((s.jobsOf js).values.filterMap parentEntry).lookup n

/-- **No two parents share a job id.** -/
def DistinctParents (s : InMemoryStore) (js : String) : Prop :=
  (((s.jobsOf js).values.filterMap parentEntry).map Prod.fst).Nodup

instance (s : InMemoryStore) (js : String) : Decidable (DistinctParents s js) :=
  inferInstanceAs (Decidable (List.Nodup _))

/-- The named records, each once, in the order they are mentioned first. -/
def targets (s : InMemoryStore) (js : String) (refs : List Ref) : List JobRecord :=
  (refs.filterMap (named? s js)).eraseDups

/-- **Why a removal is refused.** -/
inductive RemoveRefused (s : InMemoryStore) (js : String) (refs : List Ref) (force : Bool) : Prop
  | empty : refs = [] → RemoveRefused s js refs force
  | unnamed {ref : Ref} : ref ∈ refs → named? s js ref = none → RemoveRefused s js refs force
  | active {ref : Ref} {rec : JobRecord} : force = false → ref ∈ refs →
      named? s js ref = some rec → rec.state.isInactive = false → RemoveRefused s js refs force

/-- **All or nothing**: a refused removal changes nothing; the others remove and return exactly the
named records, leave the rest in its order, and set the count to the number of what is left. -/
def RemovesNamed (s : InMemoryStore) (js : String) (refs : List Ref) (force : Bool)
    (out : Except ManagerError (List JobRecord) × World) : Prop :=
  match out with
  | (.error _, w) => RemoveRefused s js refs force ∧ w.store = s
  | (.ok removed, w) => ¬RemoveRefused s js refs force ∧ removed = targets s js refs ∧
      Settled s w.store js ((s.jobsOf js).filter fun k _ => k ∉ removed.map (·.jobKey))

/-- An error with the name of another command. -/
def inCommand (what : String) : ManagerError → ManagerError
  | .removeNotAllowed _ js ks => .removeNotAllowed what js ks
  | e => e

/-- All keys of a jobset. -/
def allKeys (s : InMemoryStore) (js : String) : List Ref := (s.jobsOf js).keys.map .key

/-! ## The two lookups -/

section Lookup

variable {s : InMemoryStore} {js : String}

/-- The records of a jobset lie under their own keys. -/
theorem jobKeys_eq (hp : s.Placed) (js : String) :
    (s.jobsOf js).values.map (·.jobKey) = (s.jobsOf js).keys := by
  rw [Dict.values, Dict.keys, List.map_map]
  refine List.map_congr_left fun e he => ?_
  have hj : s.job? js e.1 = some e.2 := by
    rw [← InMemoryStore.get?_jobsOf]
    exact Dict.get?_eq_some.mpr he
  exact (hp.own js e.1 e.2 hj).2

theorem mem_jobs_iff (hp : s.Placed) {rec : JobRecord} :
    rec ∈ (s.jobsOf js).values ↔ s.job? js rec.jobKey = some rec := by
  rw [Dict.mem_values]
  simp only [InMemoryStore.get?_jobsOf]
  constructor
  · rintro ⟨k, hk⟩
    rw [(hp.own js k rec hk).2]
    exact hk
  · exact fun h => ⟨rec.jobKey, h⟩

theorem get?_indexByKey (hp : s.Placed) (k : String) :
    (indexByKey (s.jobsOf js).values).get? k = s.job? js k := by
  have hnd : ((s.jobsOf js).values.map (·.jobKey)).Nodup := by
    rw [jobKeys_eq hp]
    exact Dict.nodup_keys _
  rw [indexByKey, Dict.get?_foldl_set (·.jobKey) fun r : JobRecord => r, Dict.get?_empty,
    Option.or_none, Option.map_id']
  ext rec
  constructor
  · intro h
    have hkey : rec.jobKey = k := by simpa using List.find?_some h
    rw [← hkey]
    exact (mem_jobs_iff hp).mp (List.mem_reverse.mp (List.mem_of_find?_eq_some h))
  · intro h
    obtain rfl := (hp.own js k rec h).2
    exact find?_eq_some_of_nodup (fun r : JobRecord => r.jobKey)
      (by rw [List.map_reverse]; exact List.nodup_reverse.mpr hnd)
      (List.mem_reverse.mpr ((mem_jobs_iff hp).mpr h))

/-- The index of distinct job ids reads like the list it is made of. -/
theorem get?_indexByJobId (hd : DistinctParents s js) (n : ℤ) :
    (indexByJobId (s.jobsOf js).values).get? n
      = ((s.jobsOf js).values.filterMap parentEntry).lookup n := by
  rw [DistinctParents] at hd
  rw [indexByJobId, Dict.get?_foldl_set Prod.fst Prod.snd, Dict.get?_empty, Option.or_none]
  generalize (s.jobsOf js).values.filterMap parentEntry = l at hd
  have hlook : l.lookup n = (⟨l, hd⟩ : Dict ℤ JobRecord).get? n := rfl
  ext rec
  rw [hlook, Dict.get?_eq_some, Option.map_eq_some_iff]
  constructor
  · rintro ⟨⟨m, r⟩, hfind, rfl⟩
    obtain rfl : m = n := by simpa using List.find?_some hfind
    exact List.mem_reverse.mp (List.mem_of_find?_eq_some hfind)
  · intro hmem
    exact ⟨(n, rec), find?_eq_some_of_nodup Prod.fst
      (by rw [List.map_reverse]; exact List.nodup_reverse.mpr hd) (List.mem_reverse.mpr hmem), rfl⟩

/-- **What a ref names is a record of the jobset.** -/
theorem named?_mem (hp : s.Placed) {ref : Ref} {rec : JobRecord} (h : named? s js ref = some rec) :
    s.job? js rec.jobKey = some rec := by
  match ref with
  | .key k =>
    obtain rfl := (hp.own js k rec h).2
    exact h
  | .id n =>
    refine (mem_jobs_iff hp).mp ?_
    have hmem : (n, rec) ∈ (s.jobsOf js).values.filterMap parentEntry := by
      have h' : ((s.jobsOf js).values.filterMap parentEntry).lookup n = some rec := h
      rw [List.lookup_eq_some_iff] at h'
      obtain ⟨l₁, l₂, heq, -⟩ := h'
      rw [heq]
      simp
    obtain ⟨r, hr, hent⟩ := List.mem_filterMap.mp hmem
    rw [parentEntry] at hent
    split at hent
    · obtain ⟨-, rfl⟩ := Prod.mk.inj (Option.some.inj hent)
      exact hr
    · cases hent

end Lookup

/-! ## The loop over the refs -/

section Resolve

variable {s : InMemoryStore} {js : String} {jobs : List JobRecord}
  {lookup : Ref → Option JobRecord}

/-- **The loop raises at the first ref that names nothing**; otherwise it returns each named record
once, those aside whose key it has seen. -/
theorem resolveLoop_cases (jobs : List JobRecord)
    (hinj : ∀ ref rec, lookup ref = some rec → s.job? js rec.jobKey = some rec)
    (seen : List String) (refs : List Ref) :
    ((∀ ref ∈ refs, lookup ref ≠ none) ∧ resolveLoop js jobs lookup seen refs
        = .ok ((refs.filterMap lookup).filter (·.jobKey ∉ seen)).eraseDups) ∨
      ∃ e, resolveLoop js jobs lookup seen refs = .error e ∧ ∃ ref ∈ refs, lookup ref = none := by
  induction refs generalizing seen with
  | nil => exact .inl ⟨by simp, rfl⟩
  | cons ref refs ih =>
    rcases hl : lookup ref with _ | rec
    · refine .inr ⟨unnamed js jobs ref, ?_, ref, List.mem_cons_self, hl⟩
      simp only [resolveLoop, hl]
    · simp only [resolveLoop, hl]
      have hmap : (ref :: refs).filterMap lookup = rec :: refs.filterMap lookup :=
        List.filterMap_cons_some hl
      have hhead : lookup ref ≠ none := by simp [hl]
      rw [hmap]
      split
      case isTrue hseen =>
        rw [List.filter_cons_of_neg (by simpa using hseen)]
        exact (ih seen).imp (fun h => ⟨List.forall_mem_cons.mpr ⟨hhead, h.1⟩, h.2⟩)
          fun ⟨e, he, r, hr, hn⟩ => ⟨e, he, r, List.mem_cons_of_mem _ hr, hn⟩
      case isFalse hseen =>
        rw [List.filter_cons_of_pos (by simpa using hseen), List.eraseDups_cons]
        obtain ⟨hall, hok⟩ | ⟨e, he, r, hr, hn⟩ := ih (rec.jobKey :: seen)
        · refine .inl ⟨List.forall_mem_cons.mpr ⟨hhead, hall⟩, ?_⟩
          -- two named records with one key are the same record
          have hsame : (refs.filterMap lookup).filter (·.jobKey ∉ rec.jobKey :: seen)
              = ((refs.filterMap lookup).filter (·.jobKey ∉ seen)).filter fun b => !b == rec := by
            rw [List.filter_filter]
            refine List.filter_congr fun r hr => ?_
            obtain ⟨ref', -, hl'⟩ := List.mem_filterMap.mp hr
            have hkey : r.jobKey = rec.jobKey ↔ r = rec := by
              refine ⟨fun heq => ?_, fun heq => by rw [heq]⟩
              have h₁ := hinj ref' r hl'
              rw [heq, hinj ref rec hl] at h₁
              exact (Option.some.inj h₁).symm
            by_cases hr' : r = rec
            · simp [hr']
            · simp [hr', hkey]
          rw [hok, hsame]
          rfl
        · exact .inr ⟨e, by rw [he]; rfl, r, List.mem_cons_of_mem _ hr, hn⟩

theorem nodup_eraseDups {α : Type*} [DecidableEq α] (l : List α) : l.eraseDups.Nodup := by
  induction hn : l.length using Nat.strong_induction_on generalizing l with
  | _ n ih =>
    match l with
    | [] => exact List.nodup_nil
    | a :: l =>
      rw [List.eraseDups_cons, List.nodup_cons]
      refine ⟨by simp [List.mem_eraseDups], ih _ ?_ _ rfl⟩
      rw [← hn, List.length_cons]
      exact Nat.lt_succ_of_le (List.length_filter_le _ _)

theorem mem_targets {refs : List Ref} {rec : JobRecord} :
    rec ∈ targets s js refs ↔ ∃ ref ∈ refs, named? s js ref = some rec := by
  rw [targets, List.mem_eraseDups, List.mem_filterMap]

/-- The named records have distinct keys. -/
theorem nodup_targets (hp : s.Placed) (refs : List Ref) :
    ((targets s js refs).map (·.jobKey)).Nodup := by
  refine (nodup_eraseDups _).map_on fun r hr r' hr' heq => ?_
  obtain ⟨ref, -, h⟩ := mem_targets.mp hr
  obtain ⟨ref', -, h'⟩ := mem_targets.mp hr'
  have hj := named?_mem hp h
  rw [heq, named?_mem hp h'] at hj
  exact (Option.some.inj hj).symm

/-- **Both lookup paths resolve the refs to the named records**, or raise because one names
nothing. -/
theorem resolveRefs_cases (hp : s.Placed) (hjs : js ∈ s.jobsets.keys) (hd : DistinctParents s js)
    (refs : List Ref) :
    ((∀ ref ∈ refs, named? s js ref ≠ none) ∧
        resolveRefs js refs (quiet s) = (.ok (targets s js refs), quiet s)) ∨
      ∃ e, resolveRefs js refs (quiet s) = (.error e, quiet s) ∧
        ∃ ref ∈ refs, named? s js ref = none := by
  obtain ⟨r, hr⟩ := Dict.mem_keys.mp hjs
  -- the loop sees of a lookup only what it answers for these refs
  have hloop : ∀ jobs lookup, (∀ ref ∈ refs, lookup ref = named? s js ref) →
      resolveLoop js jobs lookup [] refs = resolveLoop js jobs (named? s js) [] refs := by
    intro jobs lookup h
    generalize ([] : List String) = seen
    induction refs generalizing seen with
    | nil => rfl
    | cons ref refs ih =>
      obtain ⟨hhead, hrest⟩ := List.forall_mem_cons.mp h
      simp only [resolveLoop, hhead, ih hrest]
  have hrun : ∃ jobs, resolveRefs js refs (quiet s)
      = (resolveLoop js jobs (named? s js) [] refs, quiet s) := by
    rw [resolveRefs, bind_ok (query_ok (getJobset_ok.mpr hr))]
    split
    case isTrue =>
      have hjobs : s.getJobs js = .ok (s.jobsOf js).values := by
        rw [InMemoryStore.getJobs, if_pos hjs]
        rfl
      rw [bind_ok (query_ok hjobs), check_quiet]
      refine ⟨(s.jobsOf js).values, congrArg (·, quiet s) (hloop _ _ fun ref _ => ?_)⟩
      rcases ref with k | n
      · exact get?_indexByKey hp k
      · exact get?_indexByJobId hd n
    case isFalse hno =>
      rw [bind_ok (lookup_quiet s js _), check_quiet]
      refine ⟨[], congrArg (·, quiet s) (hloop _ _ fun ref href => ?_)⟩
      rcases ref with k | n
      · exact InMemoryStore.get?_getJobsByKeys s _ (List.mem_filterMap.mpr ⟨_, href, rfl⟩)
      · exact absurd (List.any_eq_true.mpr ⟨_, href, rfl⟩) hno
  obtain ⟨jobs, hrun⟩ := hrun
  rw [hrun]
  have hinj : ∀ ref rec, named? s js ref = some rec → s.job? js rec.jobKey = some rec :=
    fun ref rec h => named?_mem hp h
  obtain ⟨hall, hok⟩ | ⟨e, he, hwhy⟩ := resolveLoop_cases jobs hinj [] refs
  · refine .inl ⟨hall, ?_⟩
    rw [hok]
    simp [targets]
  · exact .inr ⟨e, by rw [he], hwhy⟩

end Resolve

/-! ## The deletion -/

section Delete

variable {s : InMemoryStore} {js : String} {jobs : List JobRecord}

/-- The guard of a deletion. -/
def Busy (jobs : List JobRecord) (force : Bool) : Prop :=
  force = false ∧ ∃ r ∈ jobs, r.state.isInactive = false

theorem busy_iff {force : Bool} : Busy jobs force ↔ activeKeys jobs ≠ [] ∧ force = false := by
  rw [Busy, and_comm, activeKeys, Ne, List.map_eq_nil_iff, List.filter_eq_nil_iff]
  simp

/-- **A deletion alone**: refused as a whole, or all of it done. -/
theorem deleteJobs_cases (h : s.Represented) (hn : s.Named) (hjs : js ∈ s.jobsets.keys)
    (hnd : (jobs.map (·.jobKey)).Nodup) (hin : ∀ r ∈ jobs, s.job? js r.jobKey = some r)
    (force : Bool) :
    (Busy jobs force ∧ ∀ what, deleteJobs js jobs force what (quiet s)
        = (.error (.removeNotAllowed what js (activeKeys jobs)), quiet s)) ∨
      (¬Busy jobs force ∧ ∃ s', (∀ what, deleteJobs js jobs force what (quiet s)
          = (.ok jobs, quiet s')) ∧
        Settled s s' js ((s.jobsOf js).filter fun k _ => k ∉ jobs.map (·.jobKey))) := by
  by_cases hb : Busy jobs force
  · refine .inl ⟨hb, fun what => ?_⟩
    rw [deleteJobs, if_pos (busy_iff.mp hb)]
    rfl
  · obtain ⟨s₁, hs₁, hb₁⟩ := InMemoryStore.storeDeleteJobs_became h hjs hnd hin
    obtain ⟨s', hs', hset⟩ := syncIntendedCount_settled hb₁ hn hjs
    refine .inr ⟨hb, s', fun what => ?_, hset⟩
    rw [deleteJobs, if_neg fun hc => hb (busy_iff.mpr hc),
      bind_ok (@call_ok _ s s₁ _ jobs ?_), bind_ok hs']
    · rfl
    · rw [hs₁]

theorem findTargets_ok {byKey : Dict String JobRecord}
    (h : ∀ r ∈ jobs, byKey.get? r.jobKey = some r) :
    findTargets js byKey (jobs.map (·.jobKey)) = .ok jobs := by
  induction jobs with
  | nil => rfl
  | cons r jobs ih =>
    obtain ⟨hr, hrest⟩ := List.forall_mem_cons.mp h
    simp only [List.map_cons, findTargets, hr, ih hrest]
    rfl

/-- The second lookup finds what the first one found. -/
theorem localRemoveJobs_eq (hjs : js ∈ s.jobsets.keys)
    (hin : ∀ r ∈ jobs, s.job? js r.jobKey = some r) (hne : jobs ≠ []) (force : Bool) :
    localRemoveJobs js (jobs.map (·.jobKey)) force (quiet s)
      = deleteJobs js jobs force "remove_jobs" (quiet s) := by
  obtain ⟨r, hr⟩ := Dict.mem_keys.mp hjs
  have hfind : findTargets js (s.getJobsByKeys js (jobs.map (·.jobKey))) (jobs.map (·.jobKey))
      = .ok jobs := findTargets_ok fun r hr => by
    rw [InMemoryStore.get?_getJobsByKeys s _ (List.mem_map_of_mem hr), hin r hr]
  rw [localRemoveJobs, if_neg (by simpa using hne), bind_ok (query_ok (getJobset_ok.mpr hr)),
    bind_ok (lookup_quiet s js _), hfind, bind_ok (check_quiet _ _)]

theorem job?_of_mem_targets (hp : s.Placed) {refs : List Ref} :
    ∀ r ∈ targets s js refs, s.job? js r.jobKey = some r := fun r hr => by
  obtain ⟨ref, -, hname⟩ := mem_targets.mp hr
  exact named?_mem hp hname

/-- **Refs that all name a job** are resolved, and what they name is deleted. -/
theorem removeJobs_eq (hp : s.Placed) (hjs : js ∈ s.jobsets.keys) {refs : List Ref}
    (hrefs : refs ≠ []) (hall : ∀ ref ∈ refs, named? s js ref ≠ none)
    (hok : resolveRefs js refs (quiet s) = (.ok (targets s js refs), quiet s)) (force : Bool) :
    removeJobs js refs force (quiet s)
      = deleteJobs js (targets s js refs) force "remove_jobs" (quiet s) := by
  obtain ⟨ref, refs', rfl⟩ := List.exists_cons_of_ne_nil hrefs
  obtain ⟨rec, hrec⟩ := Option.ne_none_iff_exists'.mp (hall ref List.mem_cons_self)
  have hne : targets s js (ref :: refs') ≠ [] :=
    List.ne_nil_of_mem (mem_targets.mpr ⟨ref, List.mem_cons_self, hrec⟩)
  rw [removeJobs, bind_ok hok, localRemoveJobs_eq hjs (job?_of_mem_targets hp) hne]

/-- **A removal alone** does all or nothing. -/
theorem removeJobs_removesNamed (h : s.Represented) (hn : s.Named) (hjs : js ∈ s.jobsets.keys)
    (hd : DistinctParents s js) (refs : List Ref) (force : Bool) :
    RemovesNamed s js refs force (removeJobs js refs force (quiet s)) := by
  obtain ⟨hall, hok⟩ | ⟨e, he, ref, href, hno⟩ := resolveRefs_cases h.placed hjs hd refs
  case inr =>
    rw [removeJobs, bind_error he]
    exact ⟨.unnamed href hno, rfl⟩
  by_cases hrefs : refs = []
  · subst hrefs
    rw [removeJobs, bind_ok hok]
    exact ⟨.empty rfl, rfl⟩
  rw [removeJobs_eq h.placed hjs hrefs hall hok]
  obtain ⟨⟨hforce, r, hr, hact⟩, hrun⟩ | ⟨hfree, s', hrun, hset⟩ :=
    deleteJobs_cases h hn hjs (nodup_targets h.placed refs) (job?_of_mem_targets h.placed) force
  · obtain ⟨ref, href, hname⟩ := mem_targets.mp hr
    rw [hrun]
    exact ⟨.active hforce href hname hact, rfl⟩
  · rw [hrun]
    refine ⟨?_, rfl, hset⟩
    rintro (hc | ⟨href, hno⟩ | ⟨hf, href, hname, hact⟩)
    · exact hrefs hc
    · exact hall _ href hno
    · exact hfree ⟨hf, _, mem_targets.mpr ⟨_, href, hname⟩, hact⟩

end Delete

/-! ## Removing all -/

section All

variable {s : InMemoryStore} {js : String}

theorem eraseDups_of_nodup {α : Type*} [DecidableEq α] {l : List α} (h : l.Nodup) :
    l.eraseDups = l := by
  induction l with
  | nil => rfl
  | cons a l ih =>
    rw [List.nodup_cons] at h
    have hall : l.filter (fun b => !b == a) = l := List.filter_eq_self.mpr fun b hb => by
      have hne : b ≠ a := fun heq => h.1 (heq ▸ hb)
      simp [hne]
    rw [List.eraseDups_cons, hall, ih h.2]

/-- **All keys name all records**, in their order. -/
theorem targets_allKeys (hp : s.Placed) (js : String) :
    targets s js (allKeys s js) = (s.jobsOf js).values := by
  have hnd : (s.jobsOf js).values.Nodup := by
    refine List.Nodup.of_map (·.jobKey) ?_
    rw [jobKeys_eq hp]
    exact Dict.nodup_keys _
  have hall : (allKeys s js).filterMap (named? s js) = (s.jobsOf js).values := by
    rw [allKeys, List.filterMap_map, Dict.keys, List.filterMap_map, Dict.values,
      ← List.filterMap_eq_map]
    refine List.filterMap_congr fun e he => ?_
    change s.job? js e.1 = some e.2
    rw [← InMemoryStore.get?_jobsOf]
    exact Dict.get?_eq_some.mpr he
  rw [targets, hall, eraseDups_of_nodup hnd]

theorem localClearJobs_eq (hjs : js ∈ s.jobsets.keys) (force : Bool) :
    localClearJobs js force (quiet s)
      = deleteJobs js (s.jobsOf js).values force "clear_jobs" (quiet s) := by
  have hjobs : s.getJobs js = .ok (s.jobsOf js).values := by
    rw [InMemoryStore.getJobs, if_pos hjs]
    rfl
  rw [localClearJobs, bind_ok (query_ok hjobs)]

/-- **Clearing a jobset that has jobs** is removing all keys, apart from the name of the command in
what it raises. -/
theorem localClearJobs_all (h : s.Represented) (hn : s.Named) (hjs : js ∈ s.jobsets.keys)
    (hd : DistinctParents s js) (hne : (s.jobsOf js).keys ≠ []) (force : Bool) :
    localClearJobs js force (quiet s)
      = ((removeJobs js (allKeys s js) force (quiet s)).1.mapError (inCommand "clear_jobs"),
        (removeJobs js (allKeys s js) force (quiet s)).2) := by
  have hnd : ((s.jobsOf js).values.map (·.jobKey)).Nodup := by
    rw [jobKeys_eq h.placed]
    exact Dict.nodup_keys _
  have hnamed : ∀ ref ∈ allKeys s js, named? s js ref ≠ none := by
    intro ref href
    obtain ⟨k, hk, rfl⟩ := List.mem_map.mp href
    obtain ⟨rec, hrec⟩ := Dict.mem_keys.mp hk
    rw [InMemoryStore.get?_jobsOf] at hrec
    exact Option.ne_none_iff_exists'.mpr ⟨rec, hrec⟩
  have hok : resolveRefs js (allKeys s js) (quiet s)
      = (.ok (targets s js (allKeys s js)), quiet s) := by
    obtain ⟨-, hok⟩ | ⟨-, -, ref, href, hno⟩ := resolveRefs_cases h.placed hjs hd (allKeys s js)
    · exact hok
    · exact absurd hno (hnamed ref href)
  have hrefs : allKeys s js ≠ [] := by simpa [allKeys] using hne
  rw [localClearJobs_eq hjs, removeJobs_eq h.placed hjs hrefs hnamed hok, targets_allKeys h.placed]
  obtain ⟨-, hrun⟩ | ⟨-, s', hrun, -⟩ :=
    deleteJobs_cases h hn hjs hnd (fun r hr => (mem_jobs_iff h.placed).mp hr) force <;>
  · rw [hrun, hrun]
    rfl

/-- **Clearing a jobset without jobs** returns no records. -/
theorem localClearJobs_empty (h : s.Represented) (hn : s.Named) (hjs : js ∈ s.jobsets.keys)
    (hnil : (s.jobsOf js).keys = []) (force : Bool) :
    ∃ s', localClearJobs js force (quiet s) = (.ok [], quiet s') ∧
        Settled s s' js (s.jobsOf js) := by
  have hvals : (s.jobsOf js).values = [] := by
    rw [Dict.keys, List.map_eq_nil_iff] at hnil
    rw [Dict.values, hnil]
    rfl
  have hnd : (([] : List JobRecord).map (·.jobKey)).Nodup := List.nodup_nil
  rw [localClearJobs_eq hjs, hvals]
  obtain ⟨⟨-, r, hr, -⟩, -⟩ | ⟨-, s', hrun, hset⟩ :=
    deleteJobs_cases h hn hjs hnd (by simp) force
  · cases hr
  · have hall : (s.jobsOf js).filter (fun k _ => k ∉ ([] : List JobRecord).map (·.jobKey))
        = s.jobsOf js := Dict.ext_entries (List.filter_eq_self.mpr fun e _ => by simp)
    rw [hall] at hset
    exact ⟨s', hrun _, hset⟩

end All

/-! ## Every removal -/

/-- **Job removal is all-or-nothing**, from every store that operations can lead to, with every list
of refs and force flag.  Clearing a jobset is removing all its keys, except that a jobset without
jobs is cleared without raising. -/
theorem remove_all_or_nothing (ops : List InMemoryStore.Op) (js : String) (force : Bool)
    (hjs : js ∈ (InMemoryStore.afterOps ops).jobsets.keys)
    (hd : DistinctParents (InMemoryStore.afterOps ops) js) :
    (∀ refs, RemovesNamed (InMemoryStore.afterOps ops) js refs force
        (removeJobs js refs force (quiet (InMemoryStore.afterOps ops)))) ∧
      if ((InMemoryStore.afterOps ops).jobsOf js).keys = [] then
        ∃ s', localClearJobs js force (quiet (InMemoryStore.afterOps ops)) = (.ok [], quiet s') ∧
          Settled (InMemoryStore.afterOps ops) s' js ((InMemoryStore.afterOps ops).jobsOf js)
      else
        localClearJobs js force (quiet (InMemoryStore.afterOps ops))
          = ((removeJobs js (allKeys (InMemoryStore.afterOps ops) js) force
              (quiet (InMemoryStore.afterOps ops))).1.mapError (inCommand "clear_jobs"),
            (removeJobs js (allKeys (InMemoryStore.afterOps ops) js) force
              (quiet (InMemoryStore.afterOps ops))).2) := by
  have h := InMemoryStore.represented_afterOps ops
  have hn := InMemoryStore.named_afterOps ops
  refine ⟨fun refs => removeJobs_removesNamed h hn hjs hd refs force, ?_⟩
  split
  case isTrue hnil => exact localClearJobs_empty h hn hjs hnil force
  case isFalse hne => exact localClearJobs_all h hn hjs hd hne force

/-- A jobset with a finished parent, one of its elements, and a job that was never submitted. -/
def parentAndElement : List InMemoryStore.Op :=
  [.insertJobset 0 { jobsetId := "js", intendedCount := 3 },
    .addJobs 0
      [{ jobsetId := "js", jobKey := "a", jobId := some 7, state := .done, generation := 0 },
      { jobsetId := "js", jobKey := "a[1]", jobId := some 7, arrayIndex := some 1, state := .done,
        generation := 0 },
      { jobsetId := "js", jobKey := "b", generation := 0 }]]

/-- The parent is named by its key and by its job id, and removed once. -/
theorem remove_all_or_nothing_parent :
    RemovesNamed (InMemoryStore.afterOps parentAndElement) "js" [.key "b", .id 7, .key "a"] false
      (removeJobs "js" [.key "b", .id 7, .key "a"] false
        (quiet (InMemoryStore.afterOps parentAndElement))) :=
  (remove_all_or_nothing parentAndElement "js" false (by decide +kernel) (by decide +kernel)).1 _

/-- **Clearing is not removing all keys** of a jobset without jobs: there the list of keys is empty,
which a removal refuses. -/
theorem not_remove_all_or_nothing :
    ¬∀ (ops : List InMemoryStore.Op) (js : String) (force : Bool),
      js ∈ (InMemoryStore.afterOps ops).jobsets.keys →
      DistinctParents (InMemoryStore.afterOps ops) js →
      RemovesNamed (InMemoryStore.afterOps ops) js (allKeys (InMemoryStore.afterOps ops) js) force
        (localClearJobs js force (quiet (InMemoryStore.afterOps ops))) := by
  intro hall
  let ops : List InMemoryStore.Op := [.insertJobset 0 { jobsetId := "js", intendedCount := 3 }]
  obtain ⟨hno, -⟩ := hall ops "js" false (by decide +kernel) (by decide +kernel)
  exact hno (.empty (by decide +kernel))

end Jobset

end Lsfmgr
