import Mathlib
import Lsfmgr.Machinery.Streak
import Lsfmgr.Monitor.Querier
import Lsfmgr.Submit.Tracked

/-!
# Monitor/Lost — a job is lost after N absences in a row, and only then

The table of the querier is taken out, rebuilt and written back in every cycle, while the rest of
the library writes to the records and forgets entries.  What it counts is nevertheless the streak of
absences in the history of the completed cycles (`Counted`), for every record that is on LSF — the
other entries do not matter, as a generation with a job id that has left LSF never returns
(`onLsf_of_stepped`).  The rule of the LOST transition follows (`lost_iff`).
-/

namespace Lsfmgr.Monitor

open Machinery Submit

/-! ## Generations that have a job id -/

/-- The generation was given out, and a record that still has it has a job id. -/
def Identified (js : String) (w : Shared) (k : Key) (g : ℕ) : Prop :=
  g < w.nextGen ∧ ∀ r, w.store.job? js k = some r → r.generation = g → r.jobId.isSome = true

section Steps

variable {P : Params} {w w' : Shared} {ts ts' : List Thread} {ran : Option ℕ}

/-- What a step can do to one record, seen from the querier. -/
inductive Seen (n : ℕ) (old new : Option JobRecord) : Prop
  /-- There is none any more, or one of a new generation. -/
  | replaced : (∀ r, new = some r → n ≤ r.generation) → Seen n old new
  /-- The submitter wrote to a record without a job id. -/
  | submitted {r r' : JobRecord} : old = some r → new = some r' → r.jobId = none →
      r'.generation = r.generation → Seen n old new
  | held {r r' : JobRecord} : old = some r → new = some r' → Held r r' → Seen n old new

theorem Seen.refl (n : ℕ) (r : Option JobRecord) : Seen n r r := by
  rcases r with _ | r
  · exact .replaced (by simp)
  · exact .held rfl rfl (.refl r)

theorem Seen.of_moved {n m : ℕ} {gen : Option ℕ} {old new : Option JobRecord}
    (h : Moved n m gen old new) : Seen n old new := by
  rcases h with rfl | ⟨r', rfl, ⟨hg, -⟩ | ⟨r, rfl, hid, -, hg⟩⟩
  · exact .refl n new
  · exact .replaced fun r hr => (Option.some.inj hr ▸ hg).ge
  · exact .submitted rfl rfl hid hg

theorem Seen.of_kept {n m : ℕ} {old new : Option JobRecord} (h : Kept n m old new) :
    Seen n old new := by
  rcases new with _ | r'
  · exact .replaced (by simp)
  · rcases h r' rfl with ⟨hg, -, -⟩ | ⟨r, rfl, hheld⟩
    · exact .replaced fun r hr => Option.some.inj hr ▸ hg
    · exact .held rfl rfl hheld

theorem seen_of_stepped (T : Tracked P w ts) (L : Ledgered w ts) (h : Stepped P w ts ran w' ts')
    (k : Key) : Seen w.nextGen (w.store.job? P.jobsetId k) (w'.store.job? P.jobsetId k) ∧
      w.nextGen ≤ w'.nextGen := by
  cases h with
  | @thread i o t x rest cyc e hi hcode hcyc hexec =>
    have adv := T.advanced L hi hcode hcyc hexec
    refine ⟨?_, adv.nextGen⟩
    rcases adv.jobs k with heq | hm
    · have : (w.apply t.cycle e).store.job? P.jobsetId k = w.store.job? P.jobsetId k := heq
      rw [this]
      exact .refl _ _
    · exact .of_moved hm.2
  | write hm _ hk => exact ⟨.of_kept (hk.kept k), hm⟩
  | submit | cancel | abort | flags => exact ⟨.refl _ _, le_rfl⟩

/-- A generation with a job id stays one. -/
theorem Identified.stepped {k : Key} {g : ℕ} (hid : Identified P.jobsetId w k g)
    (T : Tracked P w ts) (L : Ledgered w ts) (h : Stepped P w ts ran w' ts') :
    Identified P.jobsetId w' k g := by
  obtain ⟨hseen, hle⟩ := seen_of_stepped T L h k
  refine ⟨hid.1.trans_le hle, fun r hr hg => ?_⟩
  cases hseen with
  | replaced hnew => exact absurd hid.1 (hg ▸ hnew r hr).not_gt
  | submitted hold hnew hnone hgen =>
    obtain rfl := Option.some.inj (hr.symm.trans hnew)
    have := hid.2 _ hold (hgen ▸ hg)
    simp [hnone] at this
  | held hold hnew hheld =>
    obtain rfl := Option.some.inj (hr.symm.trans hnew)
    rw [hheld.jobId]
    exact hid.2 _ hold (hheld.generation ▸ hg)

/-- **A generation with a job id that is on LSF was on LSF before**: having left LSF, it never
returns. -/
theorem onLsf_of_stepped (T : Tracked P w ts) (L : Ledgered w ts) (h : Stepped P w ts ran w' ts')
    {k : Key} {r' : JobRecord} (hr : w'.store.job? P.jobsetId k = some r')
    (hon : r'.state.isOnLsf = true) (hid : Identified P.jobsetId w k r'.generation) :
    ∃ r, w.store.job? P.jobsetId k = some r ∧ r.state.isOnLsf = true ∧
      r.generation = r'.generation := by
  cases (seen_of_stepped T L h k).1 with
  | replaced hnew => exact absurd hid.1 (hnew r' hr).not_gt
  | submitted hold hnew hnone hgen =>
    obtain rfl := Option.some.inj (hr.symm.trans hnew)
    have := hid.2 _ hold hgen.symm
    simp [hnone] at this
  | held hold hnew hheld =>
    obtain rfl := Option.some.inj (hr.symm.trans hnew)
    exact ⟨_, hold, hheld.onLsf hon, hheld.generation.symm⟩

end Steps

/-! ## The judgement of one cycle -/

/-- The absences counted for a generation of a key. -/
def count (t : Streaks) (k : Key) (g : ℕ) : ℕ :=
  match t.get? k with
  | some (g', n) => if g' = g then n else 0
  | none => 0

/-- What makes a polled record absent. -/
def AbsentRecord (cfg : Config) (v : View) (rec : JobRecord) : Prop :=
  (∃ id, rec.jobId = some id ∧ id ∉ v.failed) ∧ (∀ st ∈ v.rows, ¬st.Matches rec) ∧
    withinSubmitGrace rec v.now cfg.submitGraceS = false

section Judgement

variable {cfg : Config} {v : View} {prev : Streaks}

theorem absences_eq_some {rec : JobRecord} {n : ℕ} :
    absences cfg v prev rec = some n ↔
      ((∃ id, rec.jobId = some id ∧ id ∉ v.failed) ∧
        withinSubmitGrace rec v.now cfg.submitGraceS = false) ∧
      n = count prev rec.jobKey rec.generation + 1 := by
  rw [absences, count]
  rcases rec.jobId with _ | id
  · simp
  · by_cases hf : id ∈ v.failed
    · simp [hf]
    · rcases withinSubmitGrace rec v.now cfg.submitGraceS with _ | _
      · rcases prev.get? rec.jobKey with _ | ⟨g, m⟩
        · simp [hf, eq_comm]
        · by_cases hg : g = rec.generation <;> simp [hf, hg, eq_comm]
      · simp

/-- **What is judged**: the absent records, each with one absence more than before. -/
theorem mem_judged {rec : JobRecord} {n : ℕ} :
    (rec, n) ∈ judged cfg v prev ↔ rec ∈ v.targets ∧ AbsentRecord cfg v rec ∧
      n = count prev rec.jobKey rec.generation + 1 := by
  simp only [judged, View.missing, List.mem_filterMap, List.mem_filter, Option.map_eq_some_iff,
    Option.isNone_iff_eq_none, lookup_eq_none, absences_eq_some, AbsentRecord, Prod.mk.injEq]
  constructor
  · rintro ⟨rec', ⟨hmem, hno⟩, m, ⟨⟨hid, hyoung⟩, hm⟩, rfl, rfl⟩
    exact ⟨hmem, ⟨hid, hno, hyoung⟩, hm⟩
  · rintro ⟨hmem, ⟨hid, hno, hyoung⟩, hm⟩
    exact ⟨rec, ⟨hmem, hno⟩, n, ⟨⟨hid, hyoung⟩, hm⟩, rfl, rfl⟩

theorem mem_lostRecords {rec : JobRecord} :
    rec ∈ lostRecords cfg v prev ↔ rec ∈ v.targets ∧ AbsentRecord cfg v rec ∧
      cfg.grace ≤ count prev rec.jobKey rec.generation + 1 := by
  simp only [lostRecords, List.mem_map, List.mem_filter, decide_eq_true_eq, Prod.exists,
    exists_and_right, exists_eq_right, mem_judged]
  constructor
  · rintro ⟨n, ⟨hmem, habs, rfl⟩, hle⟩
    exact ⟨hmem, habs, hle⟩
  · rintro ⟨hmem, habs, hle⟩
    exact ⟨_, ⟨hmem, habs, rfl⟩, hle⟩

/-- Two polled records of one key are the same. -/
theorem eq_of_jobKey_eq {targets : List JobRecord} (hnd : (targets.map (·.jobKey)).Nodup)
    {r r' : JobRecord} (hr : r ∈ targets) (hr' : r' ∈ targets) (h : r.jobKey = r'.jobKey) :
    r = r' := List.inj_on_of_nodup_map hnd hr hr' h

/-- No key is lost twice in one cycle. -/
theorem nodup_lostRecords (hnd : (v.targets.map (·.jobKey)).Nodup) :
    ((lostRecords cfg v prev).map (·.jobKey)).Nodup := by
  have hmissing : (v.missing.map (·.jobKey)).Nodup := (List.filter_sublist.map _).nodup hnd
  have hjudged : ((judged cfg v prev).map (·.1.jobKey)).Nodup := by
    refine nodup_map_filterMap (fun rec e he => ?_) hmissing
    obtain ⟨n, -, rfl⟩ := Option.map_eq_some_iff.mp he
    rfl
  rw [lostRecords, List.map_map]
  exact (List.filter_sublist.map _).nodup hjudged

/-- An entry of the new table is that of an absent record. -/
theorem get?_newStreaks {k : Key} {g n : ℕ} (h : (newStreaks cfg v prev).get? k = some (g, n)) :
    ∃ rec ∈ v.targets, rec.jobKey = k ∧ rec.generation = g ∧ AbsentRecord cfg v rec ∧
      n = count prev k g + 1 := by
  rw [newStreaks, Dict.get?_foldl_set (fun e : JobRecord × ℕ => e.1.jobKey)
    (fun e => (e.1.generation, e.2)), Dict.get?_empty, Option.or_none,
    Option.map_eq_some_iff] at h
  obtain ⟨⟨rec, m⟩, hfind, hval⟩ := h
  obtain ⟨rfl, rfl⟩ := Prod.mk.inj hval
  have hkey : rec.jobKey = k := by simpa using List.find?_some hfind
  obtain ⟨hmem, habs, hm⟩ := mem_judged.mp (List.mem_reverse.mp (List.mem_of_find?_eq_some hfind))
  exact ⟨rec, hmem, hkey, rfl, habs, hkey ▸ hm⟩

/-- Every absent record has an entry. -/
theorem exists_get?_newStreaks (prev : Streaks) {rec : JobRecord} (hmem : rec ∈ v.targets)
    (habs : AbsentRecord cfg v rec) : ∃ e, (newStreaks cfg v prev).get? rec.jobKey = some e := by
  have hj : (rec, _) ∈ judged cfg v prev := mem_judged.mpr ⟨hmem, habs, rfl⟩
  rw [newStreaks, Dict.get?_foldl_set (fun e : JobRecord × ℕ => e.1.jobKey)
    (fun e => (e.1.generation, e.2)), Dict.get?_empty, Option.or_none]
  rcases hf : (judged cfg v prev).reverse.find? (fun e => e.1.jobKey = rec.jobKey) with _ | e
  · rw [List.find?_eq_none] at hf
    exact absurd (decide_eq_true rfl) (hf _ (List.mem_reverse.mpr hj))
  · exact ⟨(e.1.generation, e.2), by rw [hf]; rfl⟩

/-- **One cycle moves the count as it moves the streak.** -/
theorem count_newStreaks (hnd : (v.targets.map (·.jobKey)).Nodup) {k : Key} {g : ℕ} :
    (Absent cfg k g v → count (newStreaks cfg v prev) k g = count prev k g + 1) ∧
      (¬Absent cfg k g v → count (newStreaks cfg v prev) k g = 0) := by
  constructor
  · rintro ⟨rec, hmem, rfl, rfl, habs⟩
    obtain ⟨⟨g, n⟩, he⟩ := exists_get?_newStreaks prev hmem habs
    obtain ⟨rec', hmem', hkey, rfl, -, rfl⟩ := get?_newStreaks he
    obtain rfl := eq_of_jobKey_eq hnd hmem' hmem hkey
    simp [count, he]
  · intro hno
    rw [count]
    split
    case h_1 g' n he =>
      split
      case isTrue hg =>
        obtain ⟨rec, hmem, hkey, hgen, habs, -⟩ := get?_newStreaks he
        exact absurd ⟨rec, hmem, hkey, hgen.trans hg, habs⟩ hno
      case isFalse => rfl
    case h_2 => rfl

end Judgement

/-! ## The querier and the store -/

/-- A current entry is one whose record is on LSF. -/
theorem isCurrent_iff {store : InMemoryStore} {js : String} {k : Key} {e : ℕ × ℕ} :
    isCurrent store js k e = true ↔
      ∃ r, store.job? js k = some r ∧ r.generation = e.1 ∧ r.state.isOnLsf = true := by
  rw [isCurrent]
  rcases store.job? js k with _ | r <;> simp

/-- Entries are filtered without harm for the records that are on LSF. -/
theorem count_filter (store : InMemoryStore) {js : String} {t : Streaks}
    {p : Key → ℕ × ℕ → Bool} (hp : ∀ k e, isCurrent store js k e = true → p k e = true)
    {k : Key} {r : JobRecord} (hr : store.job? js k = some r) (hon : r.state.isOnLsf = true) :
    count (t.filter p) k r.generation = count t k r.generation := by
  rw [count, count, Dict.get?_filter]
  rcases t.get? k with _ | ⟨g, n⟩
  · rfl
  · by_cases hg : g = r.generation
    · have := hp k (g, n) (isCurrent_iff.mpr ⟨r, hr, hg.symm, hon⟩)
      simp [Option.filter, this]
    · rcases hpk : p k (g, n) with _ | _ <;> simp [Option.filter, hpk, hg]

/-- The polled records of the cycle under way. -/
structure Polling (js : String) (w : Shared) (targets : List JobRecord) : Prop where
  nodup : (targets.map (·.jobKey)).Nodup
  own : ∀ rec ∈ targets, rec.jobsetId = js
  onLsf : ∀ rec ∈ targets, rec.state.isOnLsf = true
  identified : ∀ rec ∈ targets, rec.jobId.isSome = true → Identified js w rec.jobKey rec.generation

theorem Polling.nil (js : String) (w : Shared) : Polling js w [] :=
  ⟨by simp, by simp, by simp, by simp⟩

/-- **The targets of a cycle**: the records of the jobset that are on LSF. -/
theorem polling_of_getJobs {P : Params} {w : Shared} {ts : List Thread} (T : Tracked P w ts)
    (hp : w.store.Placed) {targets : List JobRecord}
    (h : w.store.getJobs P.jobsetId (some JobState.isOnLsf) = .ok targets) :
    Polling P.jobsetId w targets ∧ ∀ k r, w.store.job? P.jobsetId k = some r →
      r.state.isOnLsf = true → r ∈ targets := by
  rw [InMemoryStore.getJobs] at h
  split at h
  case isFalse => cases h
  case isTrue =>
    obtain rfl := Except.ok.inj h
    have hmem : ∀ r, r ∈ ((w.store.jobs.get? P.jobsetId).getD ∅).values ↔
        ∃ k, w.store.job? P.jobsetId k = some r := by
      intro r
      simp only [Dict.mem_values, InMemoryStore.job?]
      rcases w.store.jobs.get? P.jobsetId with _ | d <;> simp
    refine ⟨⟨?_, fun rec hrec => ?_, fun rec hrec => (List.mem_filter.mp hrec).2,
      fun rec hrec hid => ?_⟩,
      fun k r hr hon => List.mem_filter.mpr ⟨(hmem r).mpr ⟨k, hr⟩, hon⟩⟩
    · refine (List.filter_sublist.map _).nodup ?_
      rcases hj : w.store.jobs.get? P.jobsetId with _ | d
      · simp
      · simpa [map_jobKey_values hp hj] using d.nodup_keys
    · obtain ⟨k, hk⟩ := (hmem rec).mp (List.mem_filter.mp hrec).1
      exact (hp.own _ _ _ hk).1
    · obtain ⟨k, hk⟩ := (hmem rec).mp (List.mem_filter.mp hrec).1
      obtain ⟨-, rfl⟩ := hp.own _ _ _ hk
      refine ⟨T.jobs_lt _ _ hk, fun r hr _ => ?_⟩
      obtain rfl := Option.some.inj (hk.symm.trans hr)
      exact hid

/-- **The table counts the streaks** of the records that are on LSF. -/
structure Counted (js : String) (cfg : Config) (w : Shared) (table : Streaks)
    (seen : List View) : Prop where
  entries : ∀ k g n, table.get? k = some (g, n) → Identified js w k g
  views : ∀ v ∈ seen, ∀ k g, Absent cfg k g v → Identified js w k g
  exact : ∀ k r, w.store.job? js k = some r → r.state.isOnLsf = true →
    count table k r.generation = streak (Absent cfg k r.generation) seen

/-- The records that the cycle under way declares lost are those whose streak is long enough. -/
structure Losing (js : String) (cfg : Config) (w : Shared) (v : View) (seen : List View)
    (lost : List JobRecord) : Prop where
  targets : ∀ rec ∈ lost, rec ∈ v.targets ∧ rec.jobId.isSome = true
  nodup : (lost.map (·.jobKey)).Nodup
  exact : ∀ k r, w.store.job? js k = some r → r.state.isOnLsf = true →
    ((∃ rec ∈ lost, rec.jobKey = k ∧ rec.generation = r.generation) ↔
      cfg.grace ≤ streak (Absent cfg k r.generation) seen)

section Frame

variable {P : Params} {cfg : Config} {w w' : Shared} {ts ts' : List Thread} {ran : Option ℕ}
  {table : Streaks} {seen : List View}

theorem Polling.stepped {targets : List JobRecord} (G : Polling P.jobsetId w targets)
    (T : Tracked P w ts) (L : Ledgered w ts) (h : Stepped P w ts ran w' ts') :
    Polling P.jobsetId w' targets :=
  ⟨G.nodup, G.own, G.onLsf, fun rec hrec hid => (G.identified rec hrec hid).stepped T L h⟩

/-- A generation without a job id has no entry and no absences. -/
theorem Counted.zero {js : String} (K : Counted js cfg w table seen) {k : Key} {g : ℕ}
    (hid : ¬Identified js w k g) : count table k g = 0 ∧ streak (Absent cfg k g) seen = 0 := by
  refine ⟨?_, streak_eq_zero fun v hv habs => hid (K.views v hv k g habs)⟩
  rw [count]
  split
  case h_1 g' n he =>
    split
    case isTrue hg => exact absurd (hg ▸ K.entries k g' n he) hid
    case isFalse => rfl
  case h_2 => rfl

theorem Counted.stepped (K : Counted P.jobsetId cfg w table seen) (T : Tracked P w ts)
    (L : Ledgered w ts) (h : Stepped P w ts ran w' ts') :
    Counted P.jobsetId cfg w' table seen where
  entries k g n he := (K.entries k g n he).stepped T L h
  views v hv k g habs := (K.views v hv k g habs).stepped T L h
  exact k r hr hon := by
    by_cases hid : Identified P.jobsetId w k r.generation
    · obtain ⟨r₀, hr₀, hon₀, hg⟩ := onLsf_of_stepped T L h hr hon hid
      rw [← hg]
      exact K.exact k r₀ hr₀ hon₀
    · obtain ⟨hc, hs⟩ := K.zero hid
      rw [hc, hs]

theorem Losing.stepped {v : View} {lost : List JobRecord}
    (S : Losing P.jobsetId cfg w v seen lost) (K : Counted P.jobsetId cfg w table seen)
    (G : Polling P.jobsetId w v.targets) (T : Tracked P w ts) (L : Ledgered w ts)
    (h : Stepped P w ts ran w' ts') : Losing P.jobsetId cfg w' v seen lost where
  targets := S.targets
  nodup := S.nodup
  exact k r hr hon := by
    by_cases hid : Identified P.jobsetId w k r.generation
    · obtain ⟨r₀, hr₀, hon₀, hg⟩ := onLsf_of_stepped T L h hr hon hid
      rw [← hg]
      exact S.exact k r₀ hr₀ hon₀
    · rw [(K.zero hid).2]
      have hpos := cfg.one_le_grace
      refine ⟨fun ⟨rec, hrec, hk, hg⟩ => absurd ?_ hid, fun hle => absurd hle (by omega)⟩
      obtain ⟨hmem, hsome⟩ := S.targets rec hrec
      exact hk ▸ hg ▸ G.identified rec hmem hsome

end Frame

/-! ## Every reachable state -/

namespace Phase

def targets : Phase → List JobRecord
  | idle => []
  | asking targets | answered targets _ _ => targets
  | judging v _ | updating v _ | losing v _ => v.targets

def rows : Phase → List JobStatus
  | idle | asking _ => []
  | answered _ rows _ => rows
  | judging v _ | updating v _ | losing v _ => v.rows

/-- The judged view of the cycle under way, and what it declares lost. -/
def lost? : Phase → Option (View × List JobRecord)
  | updating v lost | losing v lost => some (v, lost)
  | _ => none

end Phase

namespace State

/-- The table in force: while a cycle judges, the one it has taken out. -/
def table (s : State) : Streaks :=
  match s.phase with
  | .judging _ prev => prev
  | _ => s.streaks

/-- The cycles that are in the table: the completed ones, and the one under way once judged. -/
def seen (s : State) : List View :=
  match s.phase.lost? with
  | some (v, _) => v :: s.history
  | none => s.history

end State

/-- What holds of the querier in every reachable state. -/
structure Good (P : Params) (cfg : Config) (s : State) : Prop where
  ledgered : Ledgered s.base.shared s.base.threads
  current : Current s.base.shared s.base.threads
  tracked : Tracked P s.base.shared s.base.threads
  polling : Polling P.jobsetId s.base.shared s.phase.targets
  rows : ∀ st ∈ s.phase.rows, st.state.isReported = true
  counted : Counted P.jobsetId cfg s.base.shared s.table s.seen
  losing : ∀ v lost, s.phase.lost? = some (v, lost) →
    Losing P.jobsetId cfg s.base.shared v s.seen lost

namespace Good

variable {P : Params} {cfg : Config} {s s' : State}

theorem init (h : (system P cfg).init s) : Good P cfg s := by
  obtain ⟨⟨hw, hts, -⟩, hst, hph, hhist⟩ := h
  have htab : s.table = ∅ := by simp [State.table, hph, hst]
  have hseen : s.seen = [] := by simp [State.seen, Phase.lost?, hph, hhist]
  refine ⟨?_, ?_, ?_, ?_, by simp [hph, Phase.rows], ?_, by simp [hph, Phase.lost?]⟩
  · rw [hts]; exact hw.ledgered
  · rw [hts]; exact ⟨by simp, fun c cyc hc => by simp [hw.cycles] at hc⟩
  · rw [hts]; exact .init hw
  · rw [hph]; exact .nil ..
  · rw [htab, hseen]
    exact ⟨by simp, by simp, fun k r _ _ => by simp [count]⟩

/-- A step of the base system that leaves the querier alone. -/
theorem stepped (G : Good P cfg s) {base : Submit.State} {ran : Option ℕ}
    (h : Stepped P s.base.shared s.base.threads ran base.shared base.threads) :
    Good P cfg { s with base } where
  ledgered := G.ledgered.step h (h.placed G.ledgered.placed)
  current := G.current.step G.ledgered h
  tracked := G.tracked.step G.ledgered G.current h
  polling := G.polling.stepped G.tracked G.ledgered h
  rows := G.rows
  counted := G.counted.stepped G.tracked G.ledgered h
  losing v lost hl := by
    refine (G.losing v lost hl).stepped G.counted ?_ G.tracked G.ledgered h
    have : s.phase.targets = v.targets := by
      rcases hph : s.phase with _ | _ | _ | _ | _ | _ <;> simp_all [Phase.lost?, Phase.targets]
    exact this ▸ G.polling

/-- A step of the querier that leaves the jobset alone. -/
theorem of_base_eq (G : Good P cfg s) (hb : s'.base = s.base)
    (hpoll : Polling P.jobsetId s.base.shared s'.phase.targets)
    (hrows : ∀ st ∈ s'.phase.rows, st.state.isReported = true)
    (hcount : Counted P.jobsetId cfg s.base.shared s'.table s'.seen)
    (hlose : ∀ v lost, s'.phase.lost? = some (v, lost) →
      Losing P.jobsetId cfg s.base.shared v s'.seen lost) : Good P cfg s' where
  ledgered := hb ▸ G.ledgered
  current := hb ▸ G.current
  tracked := hb ▸ G.tracked
  polling := hb ▸ hpoll
  rows := hrows
  counted := hb ▸ hcount
  losing := hb ▸ hlose

end Good

/-! ## The writes of a cycle -/

/-- A batch over distinct keys whose items hold their records is a write of the rest of the
library. -/
theorem stepped_of_batch {P : Params} {s : State} {specs : List TransitionSpec} {now : Time}
    (hp : s.store.Placed) (hnd : (specs.map (·.jobKey)).Nodup)
    (hsafe : ∀ spec ∈ specs, InMemoryStore.SafeSpec spec)
    (hheld : ∀ spec ∈ specs, ∀ r, s.store.job? P.jobsetId spec.jobKey = some r →
      Held r (InMemoryStore.batchWrite now spec r)) :
    Stepped P s.base.shared s.base.threads none
      { s.base.shared with store := (s.store.transitionMany now P.jobsetId specs).2 }
      s.base.threads := by
  obtain ⟨out, st, hrun, hp', hread⟩ :=
    InMemoryStore.transitionMany_ok P.jobsetId now hp hsafe hnd
  rw [hrun]
  refine .write le_rfl (fun _ => rfl) ⟨hp', fun k r hr => .inr ?_⟩
  rw [hread k, Option.map_eq_some_iff] at hr
  obtain ⟨old, hold, rfl⟩ := hr
  refine ⟨old, hold, ?_⟩
  rcases hf : specs.find? (·.jobKey = k) with _ | spec
  · rw [hf]
    exact .refl old
  · have hk : spec.jobKey = k := by simpa using List.find?_some hf
    rw [hf]
    exact hheld spec (List.mem_of_find?_eq_some hf) old (hk ▸ hold)

theorem batchWrite_of {p : JobRecord → Bool} (now : Time) (k : Key) (st : JobState)
    (fields : List Field) (r : JobRecord) :
    InMemoryStore.batchWrite now ⟨k, some st, Guard.of p, fields⟩ r
      = if p r then r.rewrite now st r.revision fields else r := by
  rcases h : p r with _ | _ <;>
    simp [InMemoryStore.batchWrite, InMemoryStore.checkGuard, Guard.of, h]

theorem safeSpec_of {p : JobRecord → Bool} {k : Key} {st : JobState} {fields : List Field}
    (hf : ∀ f ∈ fields, f.Plain) :
    InMemoryStore.SafeSpec ⟨k, some st, Guard.of p, fields⟩ := ⟨hf, fun r => ⟨p r, rfl⟩⟩

section Writes

variable {P : Params} {cfg : Config} {s : State} {v : View} {now : Time}

theorem mem_updateSpecs {spec : TransitionSpec} (h : spec ∈ updateSpecs cfg v) :
    ∃ rec ∈ v.targets, ∃ st fields, lookup (rowTable v.rows) rec = some st ∧
      mergeFields rec st cfg.pollRuntimeUpdates cfg.collectClusters = some fields ∧
      spec = ⟨rec.jobKey, some st.state, Guard.of (unchanged rec), fields⟩ := by
  obtain ⟨rec, hrec, hspec⟩ := List.mem_filterMap.mp h
  obtain ⟨st, hst, hspec⟩ := Option.bind_eq_some_iff.mp hspec
  obtain ⟨fields, hfields, rfl⟩ := Option.map_eq_some_iff.mp hspec
  exact ⟨rec, hrec, st, fields, hst, hfields, rfl⟩

theorem nodup_updateSpecs (hnd : (v.targets.map (·.jobKey)).Nodup) :
    ((updateSpecs cfg v).map (·.jobKey)).Nodup := by
  refine nodup_map_filterMap (fun rec spec hspec => ?_) hnd
  obtain ⟨st, -, hspec⟩ := Option.bind_eq_some_iff.mp hspec
  obtain ⟨fields, -, rfl⟩ := Option.map_eq_some_iff.mp hspec
  rfl

theorem safe_updateSpecs (cfg : Config) (v : View) : ∀ spec ∈ updateSpecs cfg v,
    InMemoryStore.SafeSpec spec := by
  intro spec hspec
  obtain ⟨rec, -, st, fields, -, hm, rfl⟩ := mem_updateSpecs hspec
  exact safeSpec_of (mergeFields_plain hm)

/-- **An observation that is written holds the record**, and never makes it lost. -/
theorem held_of_update {rec r : JobRecord} {st : JobStatus} {fields : List Field}
    (hon : rec.state.isOnLsf = true) (hst : st.state.isReported = true)
    (hid : rec.jobId.isSome = true)
    (hm : mergeFields rec st cfg.pollRuntimeUpdates cfg.collectClusters = some fields)
    (hu : unchanged rec r = true) : Held r (r.rewrite now st.state r.revision fields) := by
  obtain ⟨-, hrid, hrst⟩ := unchanged_iff.mp hu
  obtain ⟨hg, hj, hs⟩ := mergeFields_rewrite r hm now st.state r.revision
  obtain ⟨id, hsome⟩ := Option.isSome_iff_exists.mp hid
  exact ⟨hg, by rw [hj, hrid, hsome]; rfl, .inr (.inr (by rwa [hs])), fun _ => hrst ▸ hon⟩

theorem updates_stepped (cfg : Config) (now : Time) (hp : s.store.Placed)
    (hnd : (v.targets.map (·.jobKey)).Nodup)
    (hon : ∀ rec ∈ v.targets, rec.state.isOnLsf = true)
    (hrows : ∀ st ∈ v.rows, st.state.isReported = true) :
    Stepped P s.base.shared s.base.threads none { s.base.shared with
      store := (s.store.transitionMany now P.jobsetId (updateSpecs cfg v)).2 }
      s.base.threads := by
  refine stepped_of_batch hp (nodup_updateSpecs hnd) (safe_updateSpecs cfg v)
    fun spec hspec r _ => ?_
  obtain ⟨rec, hrec, st, fields, hst, hm, rfl⟩ := mem_updateSpecs hspec
  obtain ⟨hrep, hid⟩ := reported_of_lookup hrows hst
  rw [batchWrite_of]
  split
  case isTrue hu => exact held_of_update (hon rec hrec) hrep hid hm hu
  case isFalse => exact .refl r

theorem mem_lostSpecs {lost : List JobRecord} {spec : TransitionSpec} (h : spec ∈ lostSpecs lost) :
    ∃ rec ∈ lost, spec = ⟨rec.jobKey, some .lost, Guard.of (unchanged rec),
      [.failReason (some "NOT_FOUND_IN_LSF")]⟩ := by
  obtain ⟨rec, hrec, rfl⟩ := List.mem_map.mp h
  exact ⟨rec, hrec, rfl⟩

theorem safe_lostSpecs {lost : List JobRecord} : ∀ spec ∈ lostSpecs lost,
    InMemoryStore.SafeSpec spec := by
  intro spec hspec
  obtain ⟨rec, -, rfl⟩ := mem_lostSpecs hspec
  exact safeSpec_of (by simp [Field.Plain, Field.badName?, Field.keyName?])

theorem nodup_lostSpecs {lost : List JobRecord} (hnd : (lost.map (·.jobKey)).Nodup) :
    ((lostSpecs lost).map (·.jobKey)).Nodup := by
  simpa [lostSpecs, Function.comp_def] using hnd

theorem losses_stepped (now : Time) {lost : List JobRecord} (hp : s.store.Placed)
    (hnd : (lost.map (·.jobKey)).Nodup) :
    Stepped P s.base.shared s.base.threads none { s.base.shared with
      store := (s.store.transitionMany now P.jobsetId (lostSpecs lost)).2 } s.base.threads := by
  refine stepped_of_batch hp (nodup_lostSpecs hnd) safe_lostSpecs fun spec hspec r _ => ?_
  obtain ⟨rec, hrec, rfl⟩ := mem_lostSpecs hspec
  rw [batchWrite_of]
  split
  · exact ⟨rfl, rfl, .inr (.inl rfl), by simp [JobRecord.rewrite, JobState.isOnLsf]⟩
  · exact .refl r

end Writes

/-! ## Every step keeps the querier good -/

namespace Good

variable {P : Params} {cfg : Config} {s s' : State}

theorem start (G : Good P cfg s) (h : s.step P cfg .start = some s') : Good P cfg s' := by
  simp only [State.step] at h
  split at h
  case h_3 => cases h
  case h_1 hph hjobs =>
    obtain rfl := Option.some.inj h
    obtain ⟨-, hall⟩ := polling_of_getJobs G.tracked G.ledgered.placed hjobs
    have hseen : s.seen = s.history := by simp [State.seen, hph, Phase.lost?]
    refine G.of_base_eq rfl G.polling G.rows ⟨G.counted.entries, ?_, ?_⟩ fun v lost hl => ?_
    · intro v hv k g habs
      simp only [State.seen, hph, Phase.lost?, List.mem_cons] at hv
      rcases hv with rfl | hv
      · obtain ⟨rec, hrec, -⟩ := habs
        cases hrec
      · exact G.counted.views v (hseen ▸ hv) k g habs
    · exact fun k r hr hon => by cases hall k r hr hon
    · simp [hph, Phase.lost?] at hl
  case h_2 targets _ hph hjobs =>
    obtain rfl := Option.some.inj h
    obtain ⟨hpoll, -⟩ := polling_of_getJobs G.tracked G.ledgered.placed hjobs
    have hK := G.counted
    simp only [State.table, State.seen, hph, Phase.lost?] at hK
    exact G.of_base_eq rfl hpoll (by simp [Phase.rows]) hK (by simp [Phase.lost?])

theorem answer (G : Good P cfg s) {rows : List JobStatus} {failed : Finset ℕ}
    (h : s.step P cfg (.answer rows failed) = some s') : Good P cfg s' := by
  simp only [State.step] at h
  split at h
  case h_2 => cases h
  case h_1 targets hph =>
    split at h
    case isFalse => cases h
    case isTrue hrows =>
      obtain rfl := Option.some.inj h
      have hK := G.counted
      have hpoll := G.polling
      simp only [State.table, State.seen, hph, Phase.lost?, Phase.targets] at hK hpoll
      exact G.of_base_eq rfl hpoll hrows.1 hK (by simp [Phase.lost?])

theorem raise (G : Good P cfg s) (h : s.step P cfg .raise = some s') : Good P cfg s' := by
  simp only [State.step] at h
  split at h
  case h_2 => cases h
  case h_1 targets hph =>
    obtain rfl := Option.some.inj h
    have hK := G.counted
    simp only [State.table, State.seen, hph, Phase.lost?] at hK
    exact G.of_base_eq rfl (.nil ..) (by simp [Phase.rows]) hK (by simp [Phase.lost?])

theorem pop (G : Good P cfg s) {now : Time} (h : s.step P cfg (.pop now) = some s') :
    Good P cfg s' := by
  simp only [State.step] at h
  split at h
  case h_2 => cases h
  case h_1 targets rows failed hph =>
    obtain rfl := Option.some.inj h
    have hK := G.counted
    have hpoll := G.polling
    have hrows := G.rows
    simp only [State.table, State.seen, hph, Phase.lost?, Phase.targets, Phase.rows]
      at hK hpoll hrows
    exact G.of_base_eq rfl hpoll hrows hK (by simp [Phase.lost?])

/-- **The judgement**: the table that is written back counts the streaks with the cycle's view. -/
theorem judge (G : Good P cfg s) (h : s.step P cfg .judge = some s') : Good P cfg s' := by
  simp only [State.step] at h
  split at h
  case h_2 => cases h
  case h_1 v prev hph =>
    obtain rfl := Option.some.inj h
    have hK := G.counted
    have hpoll := G.polling
    have hrows := G.rows
    simp only [State.table, State.seen, hph, Phase.lost?, Phase.targets, Phase.rows]
      at hK hpoll hrows
    have hident : ∀ k g, Absent cfg k g v → Identified P.jobsetId s.base.shared k g := by
      rintro k g ⟨rec, hrec, rfl, rfl, ⟨id, hid, -⟩, -⟩
      exact hpoll.identified rec hrec (by simp [hid])
    have hviews : ∀ u ∈ v :: s.history, ∀ k g, Absent cfg k g u →
        Identified P.jobsetId s.base.shared k g := by
      intro u hu
      rcases List.mem_cons.mp hu with rfl | hu
      · exact hident
      · exact hK.views u hu
    refine G.of_base_eq rfl hpoll hrows ⟨fun k g n he => ?_, hviews, fun k r hr hon => ?_⟩ ?_
    · have he : (currentStreaks s.store P.jobsetId (newStreaks cfg v prev)).get? k
          = some (g, n) := he
      rw [currentStreaks, Dict.get?_filter, Option.filter_eq_some_iff] at he
      obtain ⟨rec, hrec, hk, hg, habs, -⟩ := get?_newStreaks he.1
      exact hident k g ⟨rec, hrec, hk, hg, habs⟩
    · change count (currentStreaks s.store P.jobsetId (newStreaks cfg v prev)) k r.generation
        = streak (Absent cfg k r.generation) (v :: s.history)
      rw [currentStreaks, count_filter s.store (fun k e h => h) hr hon]
      by_cases habs : Absent cfg k r.generation v
      · rw [(count_newStreaks hpoll.nodup).1 habs, streak_cons_of_pos habs, hK.exact k r hr hon]
      · rw [(count_newStreaks hpoll.nodup).2 habs, streak_cons_of_neg habs]
    · intro v' lost hl
      obtain ⟨rfl, rfl⟩ : v = v' ∧ lostRecords cfg v prev = lost := by
        simpa [Phase.lost?] using hl
      refine ⟨fun rec hrec => ?_, ?_, fun k r hr hon => ?_⟩
      · obtain ⟨hmem, ⟨⟨id, hid, -⟩, -⟩, -⟩ := mem_lostRecords.mp hrec
        exact ⟨hmem, by simp [hid]⟩
      · exact nodup_lostRecords hpoll.nodup
      · change _ ↔ _ ≤ streak _ (v :: s.history)
        have hexact := hK.exact k r hr hon
        have hpos := cfg.one_le_grace
        constructor
        · rintro ⟨rec, hrec, rfl, hg⟩
          obtain ⟨hmem, habs, hle⟩ := mem_lostRecords.mp hrec
          rw [streak_cons_of_pos ⟨rec, hmem, rfl, hg, habs⟩, ← hexact, ← hg]
          exact hle
        · intro hle
          by_cases habs : Absent cfg k r.generation v
          · rw [streak_cons_of_pos habs, ← hexact] at hle
            obtain ⟨rec, hmem, rfl, hg, habs⟩ := habs
            exact ⟨rec, mem_lostRecords.mpr ⟨hmem, habs, hg ▸ hle⟩, rfl, hg⟩
          · rw [streak_cons_of_neg habs] at hle
            omega

theorem forgetAll (G : Good P cfg s) (h : s.step P cfg (.forget none) = some s') :
    Good P cfg s' := by
  simp only [State.step] at h
  split at h
  case isFalse => cases h
  case isTrue hempty =>
    obtain rfl := Option.some.inj h
    have hnone : ∀ k r, s.base.shared.store.job? P.jobsetId k ≠ some r := by
      intro k r hr
      rcases hempty with hjobs | hgone
      · rw [InMemoryStore.getJobs] at hjobs
        split at hjobs
        case isFalse => cases hjobs
        case isTrue =>
          obtain ⟨d, hd, hk⟩ := Option.bind_eq_some_iff.mp hr
          have hvals : d.values = [] := by simpa [State.store, hd] using Except.ok.inj hjobs
          exact List.not_mem_nil (hvals ▸ Dict.mem_values.mpr ⟨k, hk⟩)
      · exact hgone ((G.ledgered.placed.jobs_iff _).mp (InMemoryStore.mem_jobs_keys_of_job? hr))
    refine G.of_base_eq rfl G.polling G.rows ⟨fun k g n he => ?_, G.counted.views,
      fun k r hr _ => absurd hr (hnone k r)⟩ G.losing
    rcases hph : s.phase with _ | _ | _ | ⟨v, prev⟩ | _ | _
    case judging =>
      refine G.counted.entries k g n ?_
      simpa [State.table, hph] using he
    all_goals simp [State.table, hph, Monitor.forget] at he

theorem forgetSome (G : Good P cfg s) {keys : List Key}
    (h : s.step P cfg (.forget (some keys)) = some s') : Good P cfg s' := by
  obtain rfl := Option.some.inj h
  have hcur : ∀ k e, isCurrent s.store P.jobsetId k e = true →
      (k ∉ keys || isCurrent s.store P.jobsetId k e) = true := fun k e he => by simp [he]
  refine G.of_base_eq rfl G.polling G.rows ⟨fun k g n he => ?_, G.counted.views,
    fun k r hr hon => ?_⟩ G.losing
  · refine G.counted.entries k g n ?_
    rcases hph : s.phase with _ | _ | _ | ⟨v, prev⟩ | _ | _
    case judging => simpa [State.table, hph] using he
    all_goals
      simp only [State.table, hph, Monitor.forget, Dict.get?_filter] at he ⊢
      exact (Option.filter_eq_some_iff.mp he).1
  · refine Eq.trans ?_ (G.counted.exact k r hr hon)
    rcases hph : s.phase with _ | _ | _ | ⟨v, prev⟩ | _ | _
    case judging => simp [State.table, hph]
    all_goals
      simp only [State.table, hph, Monitor.forget]
      exact count_filter s.store hcur hr hon

theorem writeUpdates (G : Good P cfg s) {now : Time}
    (h : s.step P cfg (.writeUpdates now) = some s') : Good P cfg s' := by
  simp only [State.step] at h
  split at h
  case h_2 => cases h
  case h_1 v lost hph =>
    obtain rfl := Option.some.inj h
    have hpoll := G.polling
    have hrows := G.rows
    simp only [hph, Phase.targets, Phase.rows] at hpoll hrows
    have hw : Good P cfg { s with base := (s.setStore _).base } := G.stepped
      (updates_stepped cfg now G.ledgered.placed hpoll.nodup hpoll.onLsf hrows)
    have hK := hw.counted
    have hl := hw.losing v lost
    have hpoll' := hw.polling
    simp only [State.table, State.seen, hph, Phase.lost?, Phase.targets] at hK hl hpoll'
    exact hw.of_base_eq rfl hpoll' hrows hK fun v' lost' h' => by
      obtain ⟨rfl, rfl⟩ : v = v' ∧ lost = lost' := by simpa [Phase.lost?, State.setStore] using h'
      exact hl trivial

theorem writeLost (G : Good P cfg s) {now : Time}
    (h : s.step P cfg (.writeLost now) = some s') : Good P cfg s' := by
  simp only [State.step] at h
  split at h
  case h_2 => cases h
  case h_1 v lost hph =>
    obtain rfl := Option.some.inj h
    have hl := G.losing v lost (by simp [hph, Phase.lost?])
    have hw : Good P cfg { s with base := (s.setStore _).base } := G.stepped
      (losses_stepped now G.ledgered.placed hl.nodup)
    have hK := hw.counted
    simp only [State.table, State.seen, hph, Phase.lost?] at hK
    exact hw.of_base_eq rfl (.nil ..) (by simp [State.setStore, Phase.rows]) hK
      (by simp [State.setStore, Phase.lost?])

theorem lib (G : Good P cfg s) {a : Submit.Act} (h : s.step P cfg (.lib a) = some s') :
    Good P cfg s' := by
  simp only [State.step] at h
  split at h
  case isTrue => cases h
  case isFalse =>
    obtain ⟨base, hbase, rfl⟩ := Option.map_eq_some_iff.mp h
    exact G.stepped (step_cases G.ledgered.placed hbase)

theorem step (G : Good P cfg s) {a : Act} (h : s.step P cfg a = some s') : Good P cfg s' := by
  cases a with
  | lib a => exact G.lib h
  | start => exact G.start h
  | answer rows failed => exact G.answer h
  | raise => exact G.raise h
  | pop now => exact G.pop h
  | judge => exact G.judge h
  | writeUpdates now => exact G.writeUpdates h
  | writeLost now => exact G.writeLost h
  | forget keys =>
    cases keys with
    | none => exact G.forgetAll h
    | some keys => exact G.forgetSome h

end Good

theorem good {P : Params} {cfg : Config} {s : State} (h : (system P cfg).Reachable s) :
    Good P cfg s :=
  h.invariant (I := Good P cfg) (fun _ => Good.init) fun _ _ _ _ G _ hs => G.step hs

/-! ## The LOST rule -/

/-- The cycle under way declares the record `r` of the key lost: it was found absent in the last
`cfg.grace` completed cycles, this one included, and is still as this cycle's snapshot has it. -/
structure DeclaredLost (cfg : Config) (s : State) (v : View) (k : Key) (r : JobRecord) : Prop where
  completed : cfg.grace ≤ (v :: s.history).length
  absent : ∀ u ∈ (v :: s.history).take cfg.grace, Absent cfg k r.generation u
  unchanged : ∃ rec ∈ v.targets, rec.jobKey = k ∧ r.generation = rec.generation ∧
    r.jobId = rec.jobId ∧ r.state = rec.state

section Rule

variable {P : Params} {cfg : Config} {s s' : State}

/-- **What the last write of a cycle does to a record**: it is lost when it is to be, and is still
as in the snapshot. -/
theorem job?_writeLost (G : Good P cfg s) {v : View} {lost : List JobRecord}
    (hph : s.phase = .losing v lost) {now : Time} (h : s.step P cfg (.writeLost now) = some s')
    {k : Key} {r : JobRecord} (hr : s.store.job? P.jobsetId k = some r) :
    (∃ rec ∈ lost, rec.jobKey = k ∧ unchanged rec r = true ∧
        s'.store.job? P.jobsetId k = some (r.rewrite now .lost r.revision
          [.failReason (some "NOT_FOUND_IN_LSF")])) ∨
      (∀ rec ∈ lost, rec.jobKey = k → unchanged rec r = false) ∧
        s'.store.job? P.jobsetId k = some r := by
  have hnd := (G.losing v lost (by simp [hph, Phase.lost?])).nodup
  simp only [State.step, hph] at h
  obtain rfl := Option.some.inj h
  obtain ⟨out, st, hrun, -, hread⟩ := InMemoryStore.transitionMany_ok P.jobsetId now
    G.ledgered.placed safe_lostSpecs (nodup_lostSpecs hnd)
  have hst : (s.store.transitionMany now P.jobsetId (lostSpecs lost)).2.job? P.jobsetId k
      = st.job? P.jobsetId k := by
    rw [State.store, hrun]
  change _ ∨ _ ∧ (s.store.transitionMany now P.jobsetId (lostSpecs lost)).2.job? _ k = _
  change (∃ rec ∈ lost, _ ∧ _ ∧
    (s.store.transitionMany now P.jobsetId (lostSpecs lost)).2.job? _ k = _) ∨ _
  rw [hst, hread k, show s.base.shared.store.job? P.jobsetId k = some r from hr, Option.map_some]
  by_cases hex : ∃ rec ∈ lost, rec.jobKey = k
  · obtain ⟨rec, hrec, rfl⟩ := hex
    have hmem := List.mem_map_of_mem (f := fun rec : JobRecord => (⟨rec.jobKey, some .lost,
      Guard.of (unchanged rec), [.failReason (some "NOT_FOUND_IN_LSF")]⟩ : TransitionSpec)) hrec
    have hfind := find?_eq_some_of_nodup _ (nodup_lostSpecs hnd) hmem
    rw [hfind, Option.elim_some, batchWrite_of]
    rcases hu : unchanged rec r with _ | _
    · refine .inr ⟨fun rec' hrec' hk => ?_, rfl⟩
      rw [List.inj_on_of_nodup_map hnd hrec' hrec hk, hu]
    · exact .inl ⟨rec, hrec, rfl, hu, rfl⟩
  · have hfind : (lostSpecs lost).find? (·.jobKey = k) = none := by
      rw [List.find?_eq_none]
      intro spec hspec hk
      obtain ⟨rec, hrec, rfl⟩ := mem_lostSpecs hspec
      exact hex ⟨rec, hrec, by simpa using hk⟩
    rw [hfind]
    exact .inr ⟨fun rec hrec hk => absurd ⟨rec, hrec, hk⟩ hex, rfl⟩

/-- The observations of a cycle never make a record lost. -/
theorem not_lost_writeUpdates (G : Good P cfg s) {now : Time}
    (h : s.step P cfg (.writeUpdates now) = some s') {k : Key} {r r' : JobRecord}
    (hr : s.store.job? P.jobsetId k = some r) (hne : r.state ≠ .lost)
    (hr' : s'.store.job? P.jobsetId k = some r') : r'.state ≠ .lost := by
  simp only [State.step] at h
  split at h
  case h_2 => cases h
  case h_1 v lost hph =>
    obtain rfl := Option.some.inj h
    have hnd := G.polling.nodup
    have hrows := G.rows
    simp only [hph, Phase.targets, Phase.rows] at hnd hrows
    obtain ⟨out, st, hrun, -, hread⟩ := InMemoryStore.transitionMany_ok P.jobsetId now
      G.ledgered.placed (safe_updateSpecs cfg v) (nodup_updateSpecs hnd)
    change (s.base.shared.store.transitionMany now P.jobsetId (updateSpecs cfg v)).2.job? _ k
      = _ at hr'
    change s.base.shared.store.job? P.jobsetId k = some r at hr
    rw [hrun, hread k, hr, Option.map_some] at hr'
    obtain rfl := Option.some.inj hr'
    rcases hf : (updateSpecs cfg v).find? (·.jobKey = k) with _ | spec
    · rwa [hf]
    · rw [hf, Option.elim_some]
      obtain ⟨rec, -, obs, fields, hobs, -, rfl⟩ := mem_updateSpecs (List.mem_of_find?_eq_some hf)
      have hrep := (reported_of_lookup hrows hobs).1
      rw [batchWrite_of]
      split
      · intro hlost
        rw [show obs.state = .lost from hlost] at hrep
        cases hrep
      · exact hne

/-- The steps of a cycle that write nothing to the jobset. -/
theorem store_of_query {a : Act} (ha : a.isQuery = true) (h : s.step P cfg a = some s')
    (hu : ∀ now, a ≠ .writeUpdates now) (hl : ∀ now, a ≠ .writeLost now) : s'.store = s.store := by
  cases a with
  | lib | forget => cases ha
  | writeUpdates now => exact absurd rfl (hu now)
  | writeLost now => exact absurd rfl (hl now)
  | start | answer | raise | pop | judge =>
    simp only [State.step] at h
    split at h <;> (try split at h) <;> cases h <;> rfl

/-- **The LOST rule**: a step of a query cycle sets a record to `LOST` exactly when it is the last
write of a cycle that declares the record lost — the record was polled with this generation and a
job id, and found absent, in the last `cfg.grace` completed cycles, and is unchanged since this
cycle's snapshot. -/
theorem lost_iff {a : Act} (h : (system P cfg).Reachable s) (ha : a.isQuery = true)
    (hs : (system P cfg).step s a = some s') {k : Key} {r : JobRecord}
    (hr : s.store.job? P.jobsetId k = some r) (hne : r.state ≠ .lost) :
    (∃ r', s'.store.job? P.jobsetId k = some r' ∧ r'.state = .lost) ↔
      ∃ v lost now, s.phase = .losing v lost ∧ a = .writeLost now ∧ DeclaredLost cfg s v k r := by
  have G := good h
  constructor
  · rintro ⟨r', hr', hlost⟩
    by_cases hl : ∃ now, a = .writeLost now
    · obtain ⟨now, rfl⟩ := hl
      have hph : ∃ v lost, s.phase = .losing v lost := by
        simp only [system, State.step] at hs
        split at hs
        case h_1 v lost hph => exact ⟨v, lost, hph⟩
        case h_2 => cases hs
      obtain ⟨v, lost, hph⟩ := hph
      have S := G.losing v lost (by simp [hph, Phase.lost?])
      have hseen : s.seen = v :: s.history := by simp [State.seen, hph, Phase.lost?]
      refine ⟨v, lost, now, hph, rfl, ?_⟩
      rcases job?_writeLost G hph hs hr with ⟨rec, hrec, hk, hu, -⟩ | ⟨-, hsame⟩
      · obtain ⟨hex, hid, hst⟩ := unchanged_iff.mp hu
        have hgen := (JobRecord.sameExecution_iff.mp hex).2.2
        have hmem := (S.targets rec hrec).1
        have hon : r.state.isOnLsf = true := by
          have hpoll := G.polling.onLsf
          simp only [hph, Phase.targets] at hpoll
          exact hst ▸ hpoll rec hmem
        have hle := (S.exact k r hr hon).mp ⟨rec, hrec, hk, hgen.symm⟩
        rw [hseen, le_streak] at hle
        exact ⟨hle.1, hle.2, rec, hmem, hk, hgen, hid, hst⟩
      · obtain rfl := Option.some.inj (hsame.symm.trans hr')
        exact absurd hlost hne
    · by_cases hu : ∃ now, a = .writeUpdates now
      · obtain ⟨now, rfl⟩ := hu
        exact absurd hlost (not_lost_writeUpdates G hs hr hne hr')
      · have hst := store_of_query ha hs (fun now hn => hu ⟨now, hn⟩) fun now hn => hl ⟨now, hn⟩
        rw [hst, hr] at hr'
        obtain rfl := Option.some.inj hr'
        exact absurd hlost hne
  · rintro ⟨v, lost, now, hph, rfl, hlen, habs, rec, hrec, rfl, hgen, hid, hst⟩
    have S := G.losing v lost (by simp [hph, Phase.lost?])
    have hseen : s.seen = v :: s.history := by simp [State.seen, hph, Phase.lost?]
    have hpoll := G.polling
    simp only [hph, Phase.targets] at hpoll
    have hon : r.state.isOnLsf = true := hst ▸ hpoll.onLsf rec hrec
    have hle : cfg.grace ≤ streak (Absent cfg rec.jobKey r.generation) s.seen := by
      rw [hseen, le_streak]
      exact ⟨hlen, habs⟩
    obtain ⟨rec', hrec', hk', -⟩ := (S.exact rec.jobKey r hr hon).mpr hle
    obtain rfl := eq_of_jobKey_eq hpoll.nodup (S.targets rec' hrec').1 hrec hk'
    obtain ⟨hjs, hk⟩ := G.ledgered.placed.own _ _ _ hr
    have hu : unchanged rec' r = true := unchanged_iff.mpr
      ⟨JobRecord.sameExecution_iff.mpr ⟨hjs.trans (hpoll.own rec' hrec).symm, hk, hgen⟩, hid, hst⟩
    rcases job?_writeLost G hph hs hr with ⟨-, -, -, -, hnew⟩ | ⟨hno, -⟩
    · exact ⟨_, hnew, rfl⟩
    · exact absurd hu (by simp [hno rec' hrec' rfl])

end Rule

/-! ## A job that is absent twice -/

/-- Two absences make a job lost; the source is `bjobs`. -/
def twoPolls : Config where
  lostAfterMissingPolls := 2
  internalStatus := false
  internalLostGraceS := 0
  pollRuntimeUpdates := false
  collectClusters := false

/-- The submission of one job succeeds with the id 7. -/
def submitted : List Act :=
  (.submit none 0 1 false :: threadSteps 0 12 ++ threadSteps 1 4 ++ submitResult 1 (.jobId 7)
    ++ threadSteps 1 4).map .lib

/-- A cycle whose answer has no rows, up to its last write. -/
def emptyCycle : List Act := [.start, .answer [] ∅, .pop 0, .judge, .writeUpdates 0]

/-- One job, two cycles that do not find it. -/
def absentTwice : List Act := submitted ++ emptyCycle ++ [.writeLost 0] ++ emptyCycle

/-- The second cycle declares the job lost, and its last write does it. -/
theorem lost_iff_absentTwice : ∃ s s' v lost r r',
    (system oneJobParams twoPolls).run { base := oneJob } absentTwice = some s ∧
    (system oneJobParams twoPolls).step s (.writeLost 0) = some s' ∧
    s.store.job? "js" "a" = some r ∧ r.state = .pend ∧
    s.phase = .losing v lost ∧ DeclaredLost twoPolls s v "a" r ∧
    s'.store.job? "js" "a" = some r' ∧ r'.state = .lost := by
  have hrun : (((system oneJobParams twoPolls).run { base := oneJob } absentTwice).bind fun s =>
      ((system oneJobParams twoPolls).step s (.writeLost 0)).bind fun s' =>
        (s.store.job? "js" "a").bind fun r => (s'.store.job? "js" "a").map fun r' =>
          (r.state, r'.state)) = some (.pend, .lost) := by decide +kernel
  obtain ⟨s, hs, h⟩ := Option.bind_eq_some_iff.mp hrun
  obtain ⟨s', hs', h⟩ := Option.bind_eq_some_iff.mp h
  obtain ⟨r, hr, h⟩ := Option.bind_eq_some_iff.mp h
  obtain ⟨r', hr', h⟩ := Option.map_eq_some_iff.mp h
  obtain ⟨hpend, hlost⟩ := Prod.mk.inj h
  have hinit : (system oneJobParams twoPolls).init { base := oneJob } :=
    ⟨oneJob_init, rfl, rfl, rfl⟩
  obtain ⟨v, lost, now, hph, -, hdecl⟩ := (lost_iff (System.reachable_of_run (.init hinit) hs) rfl
    hs' hr (by simp [hpend])).mp ⟨r', hr', hlost⟩
  exact ⟨s, s', v, lost, r, r', hs, hs', hr, hpend, hph, hdecl, hr', hlost⟩

end Lsfmgr.Monitor
