import Mathlib
import Lsfmgr.Monitor.Merge
import Lsfmgr.Status.Order

/-!
# Status/Retention — what pruning does to the outcome of a polled record

A source whose retention is not zero drops what ended long ago, row by row.  The outcome of a record
is its own row, or what the rows of its elements fold into, so the rows of an array that is still
polled are not the source's to drop: a failed element that ended long before the others is
forgotten, and the array counts as `DONE`.

Two sources are given the same events, one of which never prunes (`Options.unpruned`).  As long as
pruning spares what the record rests on (`Spared`) they stay alike (`Alike`), and every poll of the
record has the same result.
-/

namespace Lsfmgr.Status

open Machinery

/-- What happens to a source, as far as one record is concerned. -/
inductive Event
  /-- A query registers its ids. -/
  | register (ids : List ℕ)
  /-- A fetch returns. -/
  | respond (r : Response)
  /-- A poll of the record reads the ledger. -/
  | poll (ids : List ℕ)
  | forget (ids : List ℕ)
  | invalidate

def Event.isPoll : Event → Bool
  | poll _ => true
  | _ => false

/-- The same source without pruning. -/
def Options.unpruned (o : Options) : Options := { o with retention := 0 }

namespace Source

def on (o : Options) (s : Source) : Event → Source
  | .register ids => (s.registerInterest ids).2
  | .respond r => s.receive o r
  | .poll _ => s
  | .forget ids => s.forget ids
  | .invalidate => s.invalidate

/-- The rows of an id. -/
def rows (s : Source) (id : ℕ) : List (Option ℕ × Entry) := ((s.ledger.get? id).getD ∅).entries

/-- The source with a response merged, before it is pruned. -/
def merged (o : Options) (s : Source) (r : Response) : Source :=
  match r.statuses with
  | none => s
  | some sts => { s with ledger := merge o s sts r.now r.fetchAt }

end Source

/-- The final state that a state of a row is, if it is one. -/
def settled (st : JobState) : Option JobState := if st.isTerminal then some st else none

/-- The final state a poll derives for the record. -/
def derived (rec : JobRecord) (s : Source) : Event → Option JobState
  | .poll ids => (lookup (rowTable (s.statuses ids)) rec).bind fun st => settled st.state
  | _ => none

/-- The final state the polls of the record derive: the first one, after which it is not polled. -/
def outcome (o : Options) (rec : JobRecord) : Source → List Event → Option JobState
  | _, [] => none
  | s, e :: es => (derived rec s e).or (outcome o rec (s.on o e) es)

/-! ## What pruning has to spare -/

/-- The response is followed by a pass of `_prune_locked`: it brings rows, there is a retention, and
the last pass is long enough ago. -/
def Prunes (o : Options) (s : Source) (r : Response) : Prop :=
  r.statuses.isSome = true ∧ 0 < o.kept ∧ s.lastPruneAt + pruneMinInterval ≤ r.fetchAt

instance (o : Options) (s : Source) (r : Response) : Decidable (Prunes o s r) :=
  inferInstanceAs (Decidable (_ ∧ _))

/-- **The pruning that comes with a response spares the record**, which has the id `id`: of the rows
of the id, one has not expired, and neither has the record's own; of a record that stands for its
elements only `DONE` ones have, and none that was dropped comes back by a fetch that had been
overtaken.  `full` is the source that never prunes. -/
structure Spares (o : Options) (rec : JobRecord) (id : ℕ) (s full : Source) (r : Response) :
    Prop where
  last : Prunes o s r → (s.merged o r).rows id ≠ [] →
    ∃ q ∈ (s.merged o r).rows id, expired o r.now q.2 = false
  own : Prunes o s r → ∀ q ∈ (s.merged o r).rows id, expired o r.now q.2 = true →
    q.1 ≠ rec.arrayIndex ∧ (rec.arrayIndex = none → q.2.status.state = .done)
  overtaken : rec.arrayIndex = none → ∀ st ∈ r.statuses.getD [], st.jobId = id →
    entryAt s.ledger id st.arrayIndex = none →
    ∀ e ∈ entryAt full.ledger id st.arrayIndex, e.fetchedAt ≤ r.fetchAt

instance (o : Options) (rec : JobRecord) (id : ℕ) (s full : Source) (r : Response) :
    Decidable (Spares o rec id s full r) :=
  decidable_of_iff (_ ∧ _ ∧ _) ⟨fun ⟨h₁, h₂, h₃⟩ => ⟨h₁, h₂, h₃⟩, fun ⟨h₁, h₂, h₃⟩ => ⟨h₁, h₂, h₃⟩⟩

/-- The event does not take from the record what it rests on. -/
def Harmless (o : Options) (rec : JobRecord) (s full : Source) : Event → Prop
  | .respond r => ∀ id ∈ rec.jobId, Spares o rec id s full r
  | _ => True

instance (o : Options) (rec : JobRecord) (s full : Source) (e : Event) :
    Decidable (Harmless o rec s full e) :=
  match e with
  | .respond r => inferInstanceAs (Decidable (∀ id ∈ rec.jobId, Spares o rec id s full r))
  | .register _ | .poll _ | .forget _ | .invalidate => isTrue trivial

/-- No pruning takes from the record what it rests on while it is still polled. -/
def Spared (o : Options) (rec : JobRecord) : Source → Source → List Event → Prop
  | _, _, [] => True
  | s, full, e :: es => (es.any Event.isPoll → Harmless o rec s full e) ∧
      (derived rec s e = none → Spared o rec (s.on o e) (full.on o.unpruned e) es)

instance decidableSpared (o : Options) (rec : JobRecord) : (s full : Source) → (es : List Event) →
    Decidable (Spared o rec s full es)
  | _, _, [] => isTrue trivial
  | s, full, e :: es =>
    have := decidableSpared o rec (s.on o e) (full.on o.unpruned e) es
    inferInstanceAs (Decidable ((es.any Event.isPoll → Harmless o rec s full e) ∧
      (derived rec s e = none → Spared o rec (s.on o e) (full.on o.unpruned e) es)))

/-! ## The rows of a ledger -/

/-- Every row is filed under its id and index, and no id without one. -/
structure Filed (l : Ledger) : Prop where
  row : ∀ id idx e, entryAt l id idx = some e → e.status.jobId = id ∧ e.status.arrayIndex = idx
  some : ∀ id elems, l.get? id = some elems → elems.keys ≠ []

theorem filed_empty : Filed ∅ where
  row id idx e he := by cases he
  some id elems he := by cases he

section

variable {o : Options} {interest : Finset ℕ} {now : Time} {fetchAt : ℤ} {id : ℕ} {idx : Option ℕ}
  {l : Ledger} {s full : Source} {r : Response} {rec : JobRecord}

theorem mem_rows {e : Entry} : (idx, e) ∈ s.rows id ↔ entryAt s.ledger id idx = some e := by
  rw [Source.rows, entryAt]
  rcases s.ledger.get? id with _ | elems
  · simp only [Option.getD_none, Option.bind_none, reduceCtorEq, iff_false]
    exact List.not_mem_nil
  · exact Dict.get?_eq_some.symm

theorem rows_ne_nil : s.rows id ≠ [] ↔ ∃ idx e, entryAt s.ledger id idx = some e := by
  constructor
  · intro h
    obtain ⟨⟨idx, e⟩, hmem⟩ := List.exists_mem_of_ne_nil _ h
    exact ⟨idx, e, mem_rows.mp hmem⟩
  · rintro ⟨idx, e, h⟩ hnil
    exact List.not_mem_nil (hnil ▸ mem_rows.mpr h)

/-- What one row of a response does: it is written unless its id is not of interest, or the entry is
from a later fetch. -/
theorem absorb_spec (interest : Finset ℕ) (now : Time) (fetchAt : ℤ)
    (acc : Ledger × List (ℕ × Option ℕ)) (st : JobStatus) (id : ℕ) (idx : Option ℕ) :
    let hit := st.jobId ∈ interest ∧ st.jobId = id ∧ st.arrayIndex = idx ∧
      ∀ e ∈ entryAt acc.1 id idx, e.fetchedAt ≤ fetchAt
    (entryAt (absorb interest now fetchAt acc st).1 id idx
        = if hit then some ⟨st, now, fetchAt⟩ else entryAt acc.1 id idx) ∧
      ((id, idx) ∈ (absorb interest now fetchAt acc st).2 ↔ hit ∨ (id, idx) ∈ acc.2) := by
  intro hit
  rw [absorb]
  split
  case isTrue hout =>
    have hmiss : ¬hit := fun h => hout h.1
    simp [hmiss]
  case isFalse hin =>
    split
    case isTrue hold =>
      have hmiss : ¬hit := by
        rintro ⟨-, rfl, rfl, hle⟩
        obtain ⟨e, he, hlt⟩ := (Option.any_eq_true _ _).mp hold
        exact absurd (hle e he) (not_le.mpr (of_decide_eq_true hlt))
      simp [hmiss]
    case isFalse hnew =>
      by_cases hkey : st.jobId = id ∧ st.arrayIndex = idx
      · have hhit : hit := by
          refine ⟨not_not.mp hin, hkey.1, hkey.2, fun e he => ?_⟩
          obtain ⟨rfl, rfl⟩ := hkey
          by_contra hlt
          exact hnew ((Option.any_eq_true _ _).mpr ⟨e, he, decide_eq_true (not_le.mp hlt)⟩)
        dsimp only
        rw [entryAt_set, if_pos hkey, if_pos hhit]
        simp [hhit, hkey]
      · have hmiss : ¬hit := fun h => hkey ⟨h.2.1, h.2.2.1⟩
        dsimp only
        rw [entryAt_set, if_neg hkey, if_neg hmiss]
        simp only [List.mem_cons, hmiss, false_or, Prod.mk.injEq, or_iff_right_iff_imp,
          true_and]
        rintro ⟨rfl, rfl⟩
        exact absurd ⟨rfl, rfl⟩ hkey

theorem entryAt_refreshRuntimes (ks : List (ℕ × Option ℕ)) :
    entryAt (refreshRuntimes l now ks) id idx
      = (entryAt l id idx).map fun e => if (id, idx) ∈ ks then e else e.refreshed now := by
  rw [entryAt, refreshRuntimes, Dict.get?_mapValues, entryAt]
  rcases l.get? id with _ | elems
  · rfl
  · rw [Option.map_some, Option.bind_some, Dict.get?_mapValues, Option.bind_some]

theorem refreshed_frame (now : Time) (e : Entry) :
    (e.refreshed now).status.jobId = e.status.jobId ∧
      (e.refreshed now).status.arrayIndex = e.status.arrayIndex ∧
      (e.status.state.isOnLsf = false → e.refreshed now = e) := by
  rw [Entry.refreshed]
  split
  case h_1 hon _ =>
    refine ⟨?_, ?_, fun h => absurd hon (by rw [h]; decide)⟩
    all_goals
      dsimp only
      split <;> rfl
  case h_2 => exact ⟨rfl, rfl, fun _ => rfl⟩

theorem filed_absorb {acc : Ledger × List (ℕ × Option ℕ)} (h : Filed acc.1) (st : JobStatus) :
    Filed (absorb interest now fetchAt acc st).1 where
  row id idx e he := by
    rw [(absorb_spec _ _ _ acc st id idx).1] at he
    split at he
    case isTrue hhit =>
      obtain rfl := Option.some.inj he
      exact ⟨hhit.2.1, hhit.2.2.1⟩
    case isFalse => exact h.row id idx e he
  some id elems he := by
    rw [absorb] at he
    split at he
    · exact h.some id elems he
    · split at he
      · exact h.some id elems he
      · dsimp only at he
        rw [Dict.get?_set] at he
        split at he
        · obtain rfl := Option.some.inj he
          exact List.ne_nil_of_mem (Dict.mem_keys_set.mpr (.inl rfl))
        · exact h.some id elems he

theorem filed_foldl_absorb (sts : List JobStatus) {acc : Ledger × List (ℕ × Option ℕ)}
    (h : Filed acc.1) : Filed (sts.foldl (absorb interest now fetchAt) acc).1 := by
  induction sts generalizing acc with
  | nil => exact h
  | cons st sts ih => exact ih (filed_absorb h st)

theorem filed_refreshRuntimes (h : Filed l) (ks : List (ℕ × Option ℕ)) :
    Filed (refreshRuntimes l now ks) where
  row id idx e he := by
    rw [entryAt_refreshRuntimes] at he
    obtain ⟨e', he', rfl⟩ := Option.map_eq_some_iff.mp he
    split
    · exact h.row id idx e' he'
    · obtain ⟨hid, hidx, -⟩ := refreshed_frame now e'
      rw [hid, hidx]
      exact h.row id idx e' he'
  some id elems he := by
    rw [refreshRuntimes, Dict.get?_mapValues] at he
    obtain ⟨elems', he', rfl⟩ := Option.map_eq_some_iff.mp he
    rw [Dict.keys_mapValues]
    exact h.some id elems' he'

theorem filed_merge (h : Filed s.ledger) (sts : List JobStatus) :
    Filed (merge o s sts now fetchAt) := by
  have hfold : Filed (sts.foldl (absorb s.interest now fetchAt) (s.ledger, [])).1 :=
    filed_foldl_absorb sts h
  rw [merge]
  split
  · exact filed_refreshRuntimes hfold _
  · exact hfold

/-- A pass of pruning, as far as one id is concerned. -/
theorem prune_cases (o : Options) (s : Source) (fetchAt : ℤ) (now : Time) (id : ℕ) :
    ((s.prune o fetchAt now).ledger = s.ledger ∧ (s.prune o fetchAt now).interest = s.interest) ∨
      (0 < o.kept ∧ s.lastPruneAt + pruneMinInterval ≤ fetchAt) ∧
        ((s.prune o fetchAt now).ledger.get? id = ((s.ledger.get? id).map fun elems =>
          elems.filter fun _ e => !expired o now e).filter fun elems => elems.keys ≠ []) ∧
        (id ∈ (s.prune o fetchAt now).interest ↔ id ∈ s.interest ∧
          ∀ elems, s.ledger.get? id = some elems →
            (elems.filter fun _ e => !expired o now e).keys ≠ []) := by
  rw [Source.prune]
  split
  case isTrue => exact .inl ⟨rfl, rfl⟩
  case isFalse hkept =>
    split
    case isTrue => exact .inl ⟨rfl, rfl⟩
    case isFalse hdue =>
      refine .inr ⟨⟨not_le.mp hkept, not_lt.mp hdue⟩, ?_, ?_⟩
      · dsimp only
        rw [nonempty, Dict.get?_filter, pruned, Dict.get?_mapValues]
      · dsimp only
        rw [Finset.mem_sdiff, emptied, List.mem_toFinset, List.mem_filter, Dict.mem_keys, pruned,
          Dict.get?_mapValues]
        rcases s.ledger.get? id with _ | elems <;> simp

/-- Pruning drops rows and changes none. -/
theorem entryAt_prune (o : Options) (s : Source) (fetchAt : ℤ) (now : Time) (id : ℕ)
    (idx : Option ℕ) :
    entryAt (s.prune o fetchAt now).ledger id idx = none ∨
      entryAt (s.prune o fetchAt now).ledger id idx = entryAt s.ledger id idx := by
  rcases prune_cases o s fetchAt now id with ⟨hl, -⟩ | ⟨-, hl, -⟩
  · exact .inr (by rw [hl])
  · rw [entryAt, hl, entryAt]
    rcases s.ledger.get? id with _ | elems
    · exact .inl rfl
    · rw [Option.map_some, Option.filter_some, Option.bind_some]
      split
      · rw [Option.bind_some, Dict.get?_filter]
        rcases elems.get? idx with _ | e
        · exact .inl rfl
        · rw [Option.filter_some]
          split
          · exact .inr rfl
          · exact .inl rfl
      · exact .inl rfl

/-- A row that has not expired stays. -/
theorem entryAt_prune_of_fresh {e : Entry} (he : entryAt s.ledger id idx = some e)
    (hfresh : expired o now e = false) :
    entryAt (s.prune o fetchAt now).ledger id idx = some e := by
  rcases prune_cases o s fetchAt now id with ⟨hl, -⟩ | ⟨-, hl, -⟩
  · rw [hl, he]
  · obtain ⟨elems, helems, hidx⟩ := Option.bind_eq_some_iff.mp he
    have hget : (elems.filter fun _ e => !expired o now e).get? idx = some e := by
      rw [Dict.get?_filter, hidx, Option.filter_some, if_pos (by rw [hfresh]; rfl)]
    have hkeys : (elems.filter fun _ e => !expired o now e).keys ≠ [] :=
      List.ne_nil_of_mem (Dict.mem_keys.mpr ⟨e, hget⟩)
    rw [entryAt, hl, helems, Option.map_some, Option.filter_some, if_pos (decide_eq_true hkeys),
      Option.bind_some, hget]

theorem filed_prune (h : Filed s.ledger) : Filed (s.prune o fetchAt now).ledger where
  row id idx e he := by
    rcases entryAt_prune o s fetchAt now id idx with hnone | hsame
    · rw [hnone] at he
      cases he
    · exact h.row id idx e (hsame ▸ he)
  some id elems he := by
    rcases prune_cases o s fetchAt now id with ⟨hl, -⟩ | ⟨-, hl, -⟩
    · exact h.some id elems (hl ▸ he)
    · rw [hl] at he
      simpa using (Option.filter_eq_some_iff.mp he).2

/-- An id that keeps a row stays of interest. -/
theorem mem_interest_prune (h : Filed s.ledger)
    (hlast : s.rows id ≠ [] → (s.prune o fetchAt now).rows id ≠ []) :
    id ∈ (s.prune o fetchAt now).interest ↔ id ∈ s.interest := by
  rcases prune_cases o s fetchAt now id with ⟨-, hi⟩ | ⟨-, hl, hi⟩
  · rw [hi]
  · rw [hi, and_iff_left_iff_imp]
    intro _ elems helems hnil
    have hrows : s.rows id ≠ [] := by
      rw [Source.rows, helems, Option.getD_some]
      exact fun h' => h.some id elems helems (congrArg (List.map Prod.fst) h')
    refine hlast hrows ?_
    rw [Source.rows, hl, helems, Option.map_some, Option.filter_some, if_neg (by simpa using hnil)]
    rfl

/-! ## The response as a whole -/

theorem receive_ledger (o : Options) (s : Source) (r : Response) :
    (s.receive o r).ledger = (s.takeIn o r.fetchAt r.now r.statuses).ledger ∧
      (s.receive o r).interest = (s.takeIn o r.fetchAt r.now r.statuses).interest := by
  rw [Source.receive, Source.finish, Source.takeIn_inflight]
  obtain ⟨h₁, h₂, -⟩ := Source.land_frame
    { s.takeIn o r.fetchAt r.now r.statuses with inflight := s.inflight - 1 } r.token
  obtain ⟨k₁, k₂, -⟩ := Source.noteOutcome_frame (Source.land
    { s.takeIn o r.fetchAt r.now r.statuses with inflight := s.inflight - 1 } r.token)
    r.fetchAt r.statuses.isSome r.servedByFailover
  exact ⟨k₁.trans h₁, k₂.trans h₂⟩

theorem merged_frame (o : Options) (s : Source) (r : Response) :
    (s.merged o r).interest = s.interest ∧ (s.merged o r).lastFetchAt = s.lastFetchAt := by
  rw [Source.merged]
  split <;> exact ⟨rfl, rfl⟩

theorem filed_merged (h : Filed s.ledger) (r : Response) : Filed (s.merged o r).ledger := by
  rw [Source.merged]
  split
  · exact h
  · exact filed_merge h _

/-- What a response leaves is what is left of the merged rows by a pass of pruning, if there is
one. -/
theorem receive_cases (o : Options) (s : Source) (r : Response) :
    ((s.receive o r).ledger = (s.merged o r).ledger ∧
        (s.receive o r).interest = (s.merged o r).interest) ∨
      ∃ t : Source, r.statuses.isSome = true ∧ t.lastPruneAt = s.lastPruneAt ∧
        t.ledger = (s.merged o r).ledger ∧ t.interest = (s.merged o r).interest ∧
        (s.receive o r).ledger = (t.prune o r.fetchAt r.now).ledger ∧
        (s.receive o r).interest = (t.prune o r.fetchAt r.now).interest := by
  obtain ⟨hl, hi⟩ := receive_ledger o s r
  rw [hl, hi, Source.merged]
  rcases r.statuses with _ | sts
  · exact .inl ⟨rfl, rfl⟩
  · refine .inr
      ⟨({ s with ledger := merge o s sts r.now r.fetchAt }.succeed r.fetchAt), rfl, ?_, ?_, ?_,
      rfl, rfl⟩
    all_goals
      rw [Source.succeed]
      split <;> rfl

/-- **Only a pass drops a row, and only one that has expired.** -/
theorem expired_of_dropped {e : Entry} (he : entryAt (s.merged o r).ledger id idx = some e)
    (hnone : entryAt (s.receive o r).ledger id idx = none) :
    Prunes o s r ∧ expired o r.now e = true := by
  rcases receive_cases o s r with ⟨hl, -⟩ | ⟨t, hsome, hlast, htl, -, hl, -⟩
  · rw [hl, he] at hnone
    cases hnone
  rw [hl] at hnone
  rw [← htl] at he
  constructor
  · rcases prune_cases o t r.fetchAt r.now id with ⟨hl, -⟩ | ⟨hpass, -⟩
    · rw [hl, he] at hnone
      cases hnone
    · exact ⟨hsome, hlast ▸ hpass⟩
  · by_contra hfresh
    rw [entryAt_prune_of_fresh he ((Bool.not_eq_true _).mp hfresh)] at hnone
    cases hnone

/-- An id keeps a row if the pass, where there is one, finds a row that has not expired. -/
theorem rows_receive_ne_nil
    (hlast : Prunes o s r → ∃ q ∈ (s.merged o r).rows id, expired o r.now q.2 = false)
    (hrows : (s.merged o r).rows id ≠ []) : (s.receive o r).rows id ≠ [] := by
  obtain ⟨idx, e, he, hkept⟩ : ∃ idx e, entryAt (s.merged o r).ledger id idx = some e ∧
      (Prunes o s r → expired o r.now e = false) := by
    by_cases hp : Prunes o s r
    · obtain ⟨⟨idx, e⟩, hq, hfresh⟩ := hlast hp
      exact ⟨idx, e, mem_rows.mp hq, fun _ => hfresh⟩
    · obtain ⟨idx, e, he⟩ := rows_ne_nil.mp hrows
      exact ⟨idx, e, he, fun h => absurd h hp⟩
  rcases hr : entryAt (s.receive o r).ledger id idx with - | e'
  · obtain ⟨hp, hexpired⟩ := expired_of_dropped he hr
    rw [hkept hp] at hexpired
    cases hexpired
  · exact rows_ne_nil.mpr ⟨idx, e', hr⟩

theorem filed_on (h : Filed s.ledger) (e : Event) : Filed (s.on o e).ledger := by
  cases e with
  | register | poll | invalidate => exact h
  | respond r =>
    have hm := filed_merged (o := o) h r
    rcases receive_cases o s r with ⟨hl, -⟩ | ⟨t, -, -, ht, -, hl, -⟩
    · exact (show (s.receive o r).ledger = _ from hl) ▸ hm
    · rw [Source.on, hl]
      exact filed_prune (ht ▸ hm)
  | forget ids =>
    have hget : ∀ id, (s.forget ids).ledger.get? id = if id ∈ ids then none else s.ledger.get? id :=
      fun id => Dict.get?_foldl_erase s.ledger ids id
    refine ⟨fun id idx e he => ?_, fun id elems he => ?_⟩
    · rw [Source.on, entryAt, hget] at he
      split at he
      · cases he
      · exact h.row id idx e he
    · rw [Source.on, hget] at he
      split at he
      · cases he
      · exact h.some id elems he

/-! ## Two sources with the same events -/

/-- A row of the one ledger and of the other: the same, or that of an element that ended and was
dropped from the first. -/
def Kept (own idx : Option ℕ) (e full : Option Entry) : Prop :=
  e = full ∨ idx ≠ own ∧ e = none ∧ ∃ x, full = some x ∧ x.status.state = .done

/-- The index is one the record rests on. -/
def RestsOn (rec : JobRecord) (idx : Option ℕ) : Prop :=
  idx = rec.arrayIndex ∨ rec.arrayIndex = none

/-- **The sources are alike for the record**, which has the id `id`. -/
structure Alike (rec : JobRecord) (id : ℕ) (s full : Source) : Prop where
  last : s.lastFetchAt = full.lastFetchAt
  interest : id ∈ s.interest ↔ id ∈ full.interest
  row : ∀ idx, RestsOn rec idx →
    Kept rec.arrayIndex idx (entryAt s.ledger id idx) (entryAt full.ledger id idx)
  left : rec.arrayIndex = none → full.rows id ≠ [] → s.rows id ≠ []

theorem Alike.refl (rec : JobRecord) (id : ℕ) (s : Source) : Alike rec id s s :=
  ⟨rfl, Iff.rfl, fun _ _ => .inl rfl, fun _ h => h⟩

/-- A key that has the same entry in both ledgers has the same one after the response. -/
theorem foldl_absorb_same (now : Time) (fetchAt : ℤ) {interest' : Finset ℕ}
    (hI : id ∈ interest ↔ id ∈ interest') (sts : List JobStatus)
    (acc acc' : Ledger × List (ℕ × Option ℕ))
    (hkeys : (id, idx) ∈ acc.2 ↔ (id, idx) ∈ acc'.2)
    (h : entryAt acc.1 id idx = entryAt acc'.1 id idx) :
    let new := sts.foldl (absorb interest now fetchAt) acc
    let new' := sts.foldl (absorb interest' now fetchAt) acc'
    ((id, idx) ∈ new.2 ↔ (id, idx) ∈ new'.2) ∧ entryAt new.1 id idx = entryAt new'.1 id idx := by
  induction sts generalizing acc acc' with
  | nil => exact ⟨hkeys, h⟩
  | cons st sts ih =>
    obtain ⟨hrow, hkey⟩ := absorb_spec interest now fetchAt acc st id idx
    obtain ⟨hrow', hkey'⟩ := absorb_spec interest' now fetchAt acc' st id idx
    have hhit : (st.jobId ∈ interest ∧ st.jobId = id ∧ st.arrayIndex = idx ∧
          ∀ e ∈ entryAt acc.1 id idx, e.fetchedAt ≤ fetchAt) ↔
        (st.jobId ∈ interest' ∧ st.jobId = id ∧ st.arrayIndex = idx ∧
          ∀ e ∈ entryAt acc'.1 id idx, e.fetchedAt ≤ fetchAt) := by
      rw [h]
      constructor
      · rintro ⟨hin, rfl, hrest⟩
        exact ⟨hI.mp hin, rfl, hrest⟩
      · rintro ⟨hin, rfl, hrest⟩
        exact ⟨hI.mpr hin, rfl, hrest⟩
    refine ih (absorb interest now fetchAt acc st) (absorb interest' now fetchAt acc' st) ?_ ?_
    · rw [hkey, hkey', hhit, hkeys]
    · rw [hrow, hrow', h]
      simp only [h] at hhit
      simp only [hhit]

/-- A dropped row stays dropped, unless the response has one for its key. -/
theorem foldl_absorb_dropped (now : Time) {fetchAt : ℤ} {interest' : Finset ℕ}
    (hI : id ∈ interest ↔ id ∈ interest') (sts : List JobStatus)
    (acc acc' : Ledger × List (ℕ × Option ℕ)) {x : Entry}
    (hov : ∀ st ∈ sts, st.jobId = id → st.arrayIndex = idx → x.fetchedAt ≤ fetchAt)
    (hkeys : (id, idx) ∈ acc.2 ↔ (id, idx) ∈ acc'.2)
    (h : entryAt acc.1 id idx = none) (h' : entryAt acc'.1 id idx = some x) :
    let new := sts.foldl (absorb interest now fetchAt) acc
    let new' := sts.foldl (absorb interest' now fetchAt) acc'
    ((id, idx) ∈ new.2 ↔ (id, idx) ∈ new'.2) ∧
      (entryAt new.1 id idx = entryAt new'.1 id idx ∨
        entryAt new.1 id idx = none ∧ entryAt new'.1 id idx = some x) := by
  induction sts generalizing acc acc' with
  | nil => exact ⟨hkeys, .inr ⟨h, h'⟩⟩
  | cons st sts ih =>
    obtain ⟨hrow, hkey⟩ := absorb_spec interest now fetchAt acc st id idx
    obtain ⟨hrow', hkey'⟩ := absorb_spec interest' now fetchAt acc' st id idx
    by_cases hhit : st.jobId ∈ interest ∧ st.jobId = id ∧ st.arrayIndex = idx
    · obtain ⟨hin, hid, hidx⟩ := hhit
      have hin' : st.jobId ∈ interest' := by rw [hid] at hin ⊢; exact hI.mp hin
      have hle := hov st List.mem_cons_self hid hidx
      have hall : ∀ e ∈ entryAt acc.1 id idx, e.fetchedAt ≤ fetchAt := by simp [h]
      have hall' : ∀ e ∈ entryAt acc'.1 id idx, e.fetchedAt ≤ fetchAt := by
        rw [h']
        rintro e ⟨⟩
        exact hle
      obtain ⟨hk, he⟩ := foldl_absorb_same now fetchAt hI sts
        (absorb interest now fetchAt acc st) (absorb interest' now fetchAt acc' st)
        (by rw [hkey, hkey']; exact ⟨fun _ => .inl ⟨hin', hid, hidx, hall'⟩,
          fun _ => .inl ⟨hin, hid, hidx, hall⟩⟩)
        (by rw [hrow, hrow', if_pos ⟨hin, hid, hidx, hall⟩, if_pos ⟨hin', hid, hidx, hall'⟩])
      exact ⟨hk, .inl he⟩
    · have hmiss' : ¬(st.jobId ∈ interest' ∧ st.jobId = id ∧ st.arrayIndex = idx) := by
        rintro ⟨hin, rfl, hidx⟩
        exact hhit ⟨hI.mpr hin, rfl, hidx⟩
      have hno : ¬(st.jobId ∈ interest ∧ st.jobId = id ∧ st.arrayIndex = idx ∧
          ∀ e ∈ entryAt acc.1 id idx, e.fetchedAt ≤ fetchAt) :=
        fun hall => hhit ⟨hall.1, hall.2.1, hall.2.2.1⟩
      have hno' : ¬(st.jobId ∈ interest' ∧ st.jobId = id ∧ st.arrayIndex = idx ∧
          ∀ e ∈ entryAt acc'.1 id idx, e.fetchedAt ≤ fetchAt) :=
        fun hall => hmiss' ⟨hall.1, hall.2.1, hall.2.2.1⟩
      refine ih (absorb interest now fetchAt acc st) (absorb interest' now fetchAt acc' st)
        (fun st' hst' => hov st' (List.mem_cons_of_mem _ hst')) ?_ ?_ ?_
      · rw [hkey, hkey', or_iff_right hno, or_iff_right hno', hkeys]
      · rw [hrow, if_neg hno, h]
      · rw [hrow', if_neg hno', h']

/-- **The merge keeps the two ledgers together**: a row that was dropped from the first stays so, or
both get the one of the response. -/
theorem merge_kept (o' : Options) (ho : o'.trackRuntime = o.trackRuntime)
    (hlast : s.lastFetchAt = full.lastFetchAt) (hI : id ∈ s.interest ↔ id ∈ full.interest)
    {own : Option ℕ} (sts : List JobStatus)
    (hov : ∀ st ∈ sts, st.jobId = id → st.arrayIndex = idx → entryAt s.ledger id idx = none →
      ∀ e ∈ entryAt full.ledger id idx, e.fetchedAt ≤ fetchAt)
    (h : Kept own idx (entryAt s.ledger id idx) (entryAt full.ledger id idx)) :
    let e := entryAt (merge o s sts now fetchAt) id idx
    let e' := entryAt (merge o' full sts now fetchAt) id idx
    e = e' ∨ Kept own idx e e' ∧ entryAt full.ledger id idx ≠ none := by
  have hfold : let new := sts.foldl (absorb s.interest now fetchAt) (s.ledger, [])
      let new' := sts.foldl (absorb full.interest now fetchAt) (full.ledger, [])
      ((id, idx) ∈ new.2 ↔ (id, idx) ∈ new'.2) ∧
        (entryAt new.1 id idx = entryAt new'.1 id idx ∨ idx ≠ own ∧ entryAt new.1 id idx = none ∧
          ∃ x, entryAt new'.1 id idx = some x ∧ x.status.state = .done ∧
            entryAt full.ledger id idx ≠ none) := by
    rcases h with hsame | ⟨hidx, hnone, x, hx, hdone⟩
    · obtain ⟨hk, he⟩ :=
        foldl_absorb_same now fetchAt hI sts (s.ledger, []) (full.ledger, []) (by simp)
        hsame
      exact ⟨hk, .inl he⟩
    · obtain ⟨hk, he⟩ := foldl_absorb_dropped now hI sts (s.ledger, []) (full.ledger, [])
        (fun st hst hid hi => hov st hst hid hi hnone x hx) (by simp) hnone hx
      refine ⟨hk, he.imp_right fun ⟨h₁, h₂⟩ => ⟨hidx, h₁, x, h₂, hdone, ?_⟩⟩
      rw [hx]
      exact Option.some_ne_none x
  obtain ⟨hk, he⟩ := hfold
  intro e e'
  simp only [e, e', merge, ho, hlast]
  split
  · rw [entryAt_refreshRuntimes, entryAt_refreshRuntimes]
    rcases he with hsame | ⟨hidx, hnone, x, hx, hdone, hold⟩
    · left
      rw [hsame]
      simp only [hk]
    · refine .inr ⟨.inr ⟨hidx, by rw [hnone, Option.map_none], x, ?_, hdone⟩, hold⟩
      rw [hx, Option.map_some, (refreshed_frame now x).2.2 (by rw [hdone]; rfl), ite_self]
  · rcases he with hsame | ⟨hidx, hnone, x, hx, hdone, hold⟩
    · exact .inl hsame
    · exact .inr ⟨.inr ⟨hidx, hnone, x, hx, hdone⟩, hold⟩

/-- Merging takes no row away. -/
theorem merge_isSome (sts : List JobStatus) (h : (entryAt s.ledger id idx).isSome) :
    (entryAt (merge o s sts now fetchAt) id idx).isSome := by
  have hfold : ∀ acc : Ledger × List (ℕ × Option ℕ), (entryAt acc.1 id idx).isSome →
      (entryAt (sts.foldl (absorb s.interest now fetchAt) acc).1 id idx).isSome := by
    induction sts with
    | nil => exact fun _ h => h
    | cons st sts ih =>
      intro acc hacc
      refine ih _ ?_
      rw [(absorb_spec _ _ _ acc st id idx).1]
      split
      · rfl
      · exact hacc
  rw [merge]
  split
  · rw [entryAt_refreshRuntimes, Option.isSome_map]
    exact hfold (s.ledger, []) h
  · exact hfold (s.ledger, []) h

/-! ## What an event does to sources that are alike -/

theorem receive_lastFetchAt_congr (o o' : Options) (r : Response)
    (h : s.lastFetchAt = full.lastFetchAt) :
    (s.receive o r).lastFetchAt = (full.receive o' r).lastFetchAt := by
  rw [Source.receive_lastFetchAt, Source.receive_lastFetchAt, h]

/-- The source that never prunes keeps all that is merged. -/
theorem receive_unpruned (o : Options) (s : Source) (r : Response) :
    (s.receive o.unpruned r).ledger = (s.merged o r).ledger ∧
      (s.receive o.unpruned r).interest = s.interest := by
  obtain ⟨hl, hi⟩ := receive_ledger o.unpruned s r
  rcases hr : r.statuses with _ | sts
  · rw [hl, hi, hr, Source.merged, hr]
    exact ⟨rfl, rfl⟩
  · obtain ⟨hledger, hinterest⟩ :=
      Source.nothingPruned_of_off (o := o.unpruned) (show max (0 : ℤ) 0 ≤ 0 by decide) s r sts hr
    rw [hl, hi, hledger, hinterest, Source.merged, hr]
    exact ⟨rfl, rfl⟩

theorem rows_congr {t : Source} (h : s.ledger = t.ledger) (id : ℕ) : s.rows id = t.rows id := by
  rw [Source.rows, Source.rows, h]

/-- A response as it is merged. -/
theorem Alike.merged (h : Alike rec id s full) (r : Response)
    (hov : rec.arrayIndex = none → ∀ st ∈ r.statuses.getD [], st.jobId = id →
      entryAt s.ledger id st.arrayIndex = none →
      ∀ e ∈ entryAt full.ledger id st.arrayIndex, e.fetchedAt ≤ r.fetchAt) :
    Alike rec id (s.merged o r) (full.merged o r) := by
  obtain ⟨hi, hl⟩ := merged_frame o s r
  obtain ⟨hi', hl'⟩ := merged_frame o full r
  rcases hr : r.statuses with _ | sts
  · simp only [Source.merged, hr]
    exact h
  · rw [hr, Option.getD_some] at hov
    have hkept : ∀ idx, RestsOn rec idx →
        entryAt (s.merged o r).ledger id idx = entryAt (full.merged o r).ledger id idx ∨
          Kept rec.arrayIndex idx (entryAt (s.merged o r).ledger id idx)
            (entryAt (full.merged o r).ledger id idx) ∧ entryAt full.ledger id idx ≠ none := by
      intro idx hidx
      simp only [Source.merged, hr]
      refine merge_kept o rfl h.last h.interest sts (fun st hst hid hst' hnone => ?_)
        (h.row idx hidx)
      rcases hidx with rfl | hall
      · -- the record's own row is never dropped
        rcases h.row rec.arrayIndex (.inl rfl) with hsame | ⟨hne, -⟩
        · rw [← hsame, hnone]
          rintro e ⟨⟩
        · exact absurd rfl hne
      · subst hst'
        exact hov hall st hst hid hnone
    refine ⟨?_, ?_, fun idx hidx => ?_, fun hall hrows => ?_⟩
    · rw [hl, hl', h.last]
    · rw [hi, hi', h.interest]
    · rcases hkept idx hidx with hsame | ⟨hk, -⟩
      · exact .inl hsame
      · exact hk
    · obtain ⟨idx, e, he⟩ := rows_ne_nil.mp hrows
      rcases hkept idx (.inr hall) with hsame | ⟨-, hold⟩
      · exact rows_ne_nil.mpr ⟨idx, e, hsame.trans he⟩
      · obtain ⟨x, hx⟩ := Option.ne_none_iff_exists'.mp hold
        obtain ⟨idx', e', he'⟩ := rows_ne_nil.mp (h.left hall (rows_ne_nil.mpr ⟨idx, x, hx⟩))
        have hsome : (entryAt (merge o s sts r.now r.fetchAt) id idx').isSome :=
          merge_isSome sts (by rw [he']; rfl)
        obtain ⟨e'', he''⟩ := Option.isSome_iff_exists.mp hsome
        refine rows_ne_nil.mpr ⟨idx', e'', ?_⟩
        simp only [Source.merged, hr]
        exact he''

theorem Alike.receive (h : Alike rec id s full) (hf : Filed s.ledger) {r : Response}
    (hspares : Spares o rec id s full r) :
    Alike rec id (s.receive o r) (full.receive o.unpruned r) := by
  have hm : Alike rec id (s.merged o r) (full.merged o r) := h.merged r hspares.overtaken
  obtain ⟨hul, hui⟩ := receive_unpruned o full r
  have hlast := receive_lastFetchAt_congr o o.unpruned r h.last
  have hinterest : id ∈ (s.receive o r).interest ↔ id ∈ (s.merged o r).interest := by
    rcases receive_cases o s r with ⟨-, hi⟩ | ⟨t, -, -, htl, hti, hl, hi⟩
    · rw [hi]
    · rw [hi, ← hti]
      refine mem_interest_prune (htl ▸ filed_merged hf r) fun hrows => ?_
      rw [← rows_congr hl]
      rw [rows_congr htl id] at hrows
      exact rows_receive_ne_nil (fun hp => hspares.last hp hrows) hrows
  have hrow : ∀ idx, entryAt (s.receive o r).ledger id idx = none ∨
      entryAt (s.receive o r).ledger id idx = entryAt (s.merged o r).ledger id idx := by
    intro idx
    rcases receive_cases o s r with ⟨hl, -⟩ | ⟨t, -, -, htl, -, hl, -⟩
    · exact .inr (by rw [hl])
    · rw [hl, ← htl]
      exact entryAt_prune o t r.fetchAt r.now id idx
  refine ⟨hlast, ?_, fun idx hidx => ?_, fun hall hrows => ?_⟩
  · rw [hinterest, hm.interest, hui, (merged_frame o full r).1]
  · rw [hul]
    rcases hrow idx with hnone | hsame
    · rw [hnone]
      rcases he : entryAt (s.merged o r).ledger id idx with _ | e
      · have := hm.row idx hidx
        rwa [he] at this
      · obtain ⟨hp, hexpired⟩ := expired_of_dropped he hnone
        obtain ⟨hne, hdone⟩ := hspares.own hp (idx, e) (mem_rows.mpr he) hexpired
        have hall : rec.arrayIndex = none := hidx.resolve_left hne
        rcases hm.row idx hidx with hsame | ⟨-, hgone, -⟩
        · exact .inr ⟨hne, rfl, e, by rw [← hsame, he], hdone hall⟩
        · rw [he] at hgone
          cases hgone
    · rw [hsame]
      exact hm.row idx hidx
  · rw [rows_congr hul] at hrows
    have hleft := hm.left hall hrows
    exact rows_receive_ne_nil (fun hp => hspares.last hp hleft) hleft

theorem Alike.on (h : Alike rec id s full) (hf : Filed s.ledger) (hid : rec.jobId = some id)
    {e : Event} (hharm : Harmless o rec s full e) :
    Alike rec id (s.on o e) (full.on o.unpruned e) := by
  cases e with
  | register ids =>
    refine ⟨h.last, ?_, h.row, h.left⟩
    simp only [Source.on, Source.registerInterest, Finset.mem_union, h.interest]
  | respond r => exact h.receive hf (hharm id (by rw [hid]; rfl))
  | poll => exact h
  | forget ids =>
    have hget : ∀ (t : Source) idx, entryAt (t.forget ids).ledger id idx
        = if id ∈ ids then none else entryAt t.ledger id idx := by
      intro t idx
      rw [entryAt, Source.forget]
      dsimp only
      rw [Dict.get?_foldl_erase]
      split <;> rfl
    refine ⟨h.last, ?_, fun idx hidx => ?_, fun hall hrows => ?_⟩
    · simp only [Source.on, Source.forget, Finset.mem_sdiff, h.interest]
    · simp only [Source.on, hget]
      split
      · exact .inl rfl
      · exact h.row idx hidx
    · obtain ⟨idx, x, hx⟩ := rows_ne_nil.mp hrows
      simp only [Source.on, hget] at hx
      split at hx
      · cases hx
      case isFalse hout =>
        obtain ⟨idx', x', hx'⟩ := rows_ne_nil.mp (h.left hall (rows_ne_nil.mpr ⟨idx, x, hx⟩))
        refine rows_ne_nil.mpr ⟨idx', x', ?_⟩
        simp only [Source.on, hget, if_neg hout]
        exact hx'
  | invalidate => exact ⟨rfl, h.interest, h.row, h.left⟩

/-! ## What a poll reads -/

theorem mem_statuses {ids : List ℕ} {st : JobStatus} :
    st ∈ s.statuses ids ↔ ∃ id ∈ ids, ∃ idx e, entryAt s.ledger id idx =
        some e ∧ e.status = st := by
  simp only [Source.statuses, List.mem_flatMap, List.mem_map]
  refine exists_congr fun id => and_congr_right fun _ => ?_
  constructor
  · rintro ⟨e, he, rfl⟩
    obtain ⟨idx, hidx⟩ := Dict.mem_values.mp he
    refine ⟨idx, e, ?_, rfl⟩
    rw [entryAt]
    rcases hl : s.ledger.get? id with _ | elems <;> rw [hl] at hidx
    · cases hidx
    · exact hidx
  · rintro ⟨idx, e, he, rfl⟩
    obtain ⟨elems, helems, hidx⟩ := Option.bind_eq_some_iff.mp he
    exact ⟨e, Dict.mem_values.mpr ⟨idx, by rw [helems]; exact hidx⟩, rfl⟩

/-- The table of a poll holds the rows of the ledger. -/
theorem get?_rowTable_statuses (h : Filed s.ledger) (ids : List ℕ) (id : ℕ) (idx : Option ℕ) :
    (rowTable (s.statuses ids)).get? (id, idx)
      = if id ∈ ids then (entryAt s.ledger id idx).map Entry.status else none := by
  have hrow : ∀ st ∈ s.statuses ids, st.jobId = id → st.arrayIndex = idx →
      id ∈ ids ∧ (entryAt s.ledger id idx).map Entry.status = some st := by
    rintro st hst rfl rfl
    obtain ⟨id', hid', idx', e, he, rfl⟩ := mem_statuses.mp hst
    obtain ⟨h₁, h₂⟩ := h.row id' idx' e he
    rw [h₁, h₂, he]
    exact ⟨hid', rfl⟩
  rcases hget : (rowTable (s.statuses ids)).get? (id, idx) with _ | st
  · split
    case isFalse => rfl
    case isTrue hid =>
      rcases he : entryAt s.ledger id idx with _ | e
      · rfl
      · obtain ⟨h₁, h₂⟩ := h.row id idx e he
        obtain ⟨st', hst'⟩ := exists_get?_rowTable (mem_statuses.mpr ⟨id, hid, idx, e, he, rfl⟩)
        rw [h₁, h₂, hget] at hst'
        cases hst'
  · obtain ⟨hmem, h₁, h₂⟩ := ids_of_get?_rowTable hget
    obtain ⟨hid, he⟩ := hrow st hmem h₁ h₂
    rw [if_pos hid, he]

/-- The rows of the table that are about an id. -/
theorem mem_elements (h : Filed s.ledger) {ids : List ℕ} {id : ℕ} {st : JobStatus} :
    st ∈ ((rowTable (s.statuses ids)).values.filter fun st => st.jobId = id) ↔
      id ∈ ids ∧ ∃ idx e, entryAt s.ledger id idx = some e ∧ e.status = st := by
  rw [List.mem_filter, Dict.mem_values, decide_eq_true_iff]
  constructor
  · rintro ⟨⟨⟨id', idx⟩, hget⟩, rfl⟩
    obtain ⟨-, h₁, h₂⟩ := ids_of_get?_rowTable hget
    rw [get?_rowTable_statuses h, ← h₁] at hget
    split at hget
    case isTrue hid =>
      obtain ⟨e, he, hst⟩ := Option.map_eq_some_iff.mp hget
      exact ⟨hid, idx, e, he, hst⟩
    case isFalse => cases hget
  · rintro ⟨hid, idx, e, he, rfl⟩
    refine ⟨⟨(id, idx), ?_⟩, (h.row id idx e he).1⟩
    rw [get?_rowTable_statuses h, if_pos hid, he, Option.map_some]

/-- **The final state elements fold into** depends on which states there are among them. -/
theorem settled_aggregateElements (id : ℕ) (elems : List JobStatus) :
    settled (aggregateElements id elems).state
      = if ∃ st ∈ elems, st.state.isOnLsf = true then none
        else if ∃ st ∈ elems, st.state = .exit then some .exit else some .done := by
  simp only [aggregateElements]
  split
  case h_1 first rest hon =>
    have hsub : ∀ st ∈ first :: rest, st ∈ elems ∧ st.state.isOnLsf = true := fun st hst => by
      simpa using List.mem_filter.mp (hon ▸ hst)
    have hpick : ((((elems.filter fun e => e.state.isOnLsf).find? fun e => e.state = .run).getD
        first).state).isOnLsf = true := by
      rcases hf : (elems.filter fun e => e.state.isOnLsf).find? fun e => e.state = .run with _ | st
      · rw [hf]
        exact (hsub first List.mem_cons_self).2
      · rw [hf]
        exact (List.mem_filter.mp (List.mem_of_find?_eq_some hf)).2
    rw [if_pos ⟨first, hsub first List.mem_cons_self⟩, settled,
      if_neg (by rw [JobState.not_isTerminal_of_isOnLsf hpick]; decide)]
  case h_2 hnil =>
    have hnone : ¬∃ st ∈ elems, st.state.isOnLsf = true := by
      rintro ⟨st, hst, hon⟩
      exact List.not_mem_nil (hnil ▸ List.mem_filter.mpr ⟨hst, hon⟩)
    rw [if_neg hnone]
    split
    case isTrue hempty =>
      have hno : ¬∃ st ∈ elems, st.state = .exit := by
        rintro ⟨st, hst, hexit⟩
        rw [List.isEmpty_iff, List.filter_eq_nil_iff] at hempty
        exact hempty st hst (decide_eq_true hexit)
      rw [if_neg hno]
      rfl
    case isFalse hsome =>
      have hyes : ∃ st ∈ elems, st.state = .exit := by
        rw [List.isEmpty_iff] at hsome
        obtain ⟨st, hst⟩ := List.exists_mem_of_ne_nil _ hsome
        exact ⟨st, (List.mem_filter.mp hst).1, of_decide_eq_true (List.mem_filter.mp hst).2⟩
      rw [if_pos hyes]
      rfl

/-- **A poll of sources that are alike derives the same.** -/
theorem Alike.derived (h : Alike rec id s full) (hid : rec.jobId = some id) (hs : Filed s.ledger)
    (hfull : Filed full.ledger) (e : Event) : derived rec s e = derived rec full e := by
  cases e with
  | poll ids =>
    have hget : (rowTable (s.statuses ids)).get? (id, rec.arrayIndex)
        = (rowTable (full.statuses ids)).get? (id, rec.arrayIndex) := by
      rw [get?_rowTable_statuses hs, get?_rowTable_statuses hfull]
      rcases h.row rec.arrayIndex (.inl rfl) with hsame | ⟨hne, -⟩
      · rw [hsame]
      · exact absurd rfl hne
    simp only [Status.derived, lookup, hid, hget]
    split
    case h_1 => rfl
    case h_2 =>
      split
      case isFalse => rfl
      case isTrue hall =>
        -- a row of the first is one of the second, which has no others but `DONE` ones
        have hsub :
            ∀ idx x, entryAt s.ledger id idx = some x → entryAt full.ledger id idx = some x := by
          intro idx x hx
          rcases h.row idx (.inr hall) with hsame | ⟨-, hnone, -⟩
          · rw [← hsame, hx]
          · rw [hx] at hnone
            cases hnone
        have hsup : ∀ idx x, entryAt full.ledger id idx = some x →
            entryAt s.ledger id idx = some x ∨ x.status.state = .done := by
          intro idx x hx
          rcases h.row idx (.inr hall) with hsame | ⟨-, -, y, hy, hdone⟩
          · exact .inl (by rw [hsame, hx])
          · obtain rfl := Option.some.inj (hx.symm.trans hy)
            exact .inr hdone
        have hexists : ∀ p : JobState → Prop, ¬p .done →
            ((∃ st ∈ (rowTable (s.statuses ids)).values.filter fun st => st.jobId = id,
              p st.state) ↔
              ∃ st ∈ (rowTable (full.statuses ids)).values.filter fun st => st.jobId = id,
                p st.state) := by
          intro p hp
          constructor
          · rintro ⟨st, hst, hpst⟩
            obtain ⟨hmem, idx, x, hx, rfl⟩ := (mem_elements hs).mp hst
            exact ⟨_, (mem_elements hfull).mpr ⟨hmem, idx, x, hsub idx x hx, rfl⟩, hpst⟩
          · rintro ⟨st, hst, hpst⟩
            obtain ⟨hmem, idx, x, hx, rfl⟩ := (mem_elements hfull).mp hst
            rcases hsup idx x hx with hx | hdone
            · exact ⟨_, (mem_elements hs).mpr ⟨hmem, idx, x, hx, rfl⟩, hpst⟩
            · exact absurd (hdone ▸ hpst) hp
        have hnil : ((rowTable (s.statuses ids)).values.filter fun st => st.jobId = id) = [] ↔
            ((rowTable (full.statuses ids)).values.filter fun st => st.jobId = id) = [] := by
          rw [List.eq_nil_iff_forall_not_mem, List.eq_nil_iff_forall_not_mem]
          constructor
          · intro hno st hst
            obtain ⟨hmem, idx, x, hx, -⟩ := (mem_elements hfull).mp hst
            obtain ⟨idx', x', hx'⟩ := rows_ne_nil.mp (h.left hall (rows_ne_nil.mpr ⟨idx, x, hx⟩))
            exact hno _ ((mem_elements hs).mpr ⟨hmem, idx', x', hx', rfl⟩)
          · intro hno st hst
            obtain ⟨hmem, idx, x, hx, -⟩ := (mem_elements hs).mp hst
            exact hno _ ((mem_elements hfull).mpr ⟨hmem, idx, x, hsub idx x hx, rfl⟩)
        have hsettled := settled_aggregateElements id
          ((rowTable (s.statuses ids)).values.filter fun st => st.jobId = id)
        simp only [hexists (fun st => st.isOnLsf = true) (by decide),
          hexists (fun st => st = .exit) (by decide)] at hsettled
        rw [← settled_aggregateElements] at hsettled
        split
        case h_1 hs' => rw [hnil.mp hs']
        case h_2 elems hne =>
          split
          case h_1 hs' => exact absurd (hnil.mpr hs') hne
          case h_2 => exact hsettled
  | _ => rfl

/-! ## The outcome -/

theorem outcome_of_no_poll : ∀ (s : Source) (es : List Event), es.any Event.isPoll = false →
    outcome o rec s es = none
  | _, [], _ => rfl
  | s, e :: es, h => by
    rw [List.any_cons, Bool.or_eq_false_iff] at h
    rw [outcome, outcome_of_no_poll (s.on o e) es h.2, Option.or_none]
    cases e with
    | poll => cases h.1
    | _ => rfl

theorem outcome_of_alike (hid : rec.jobId = some id) (es : List Event)
    (h : Alike rec id s full) (hs : Filed s.ledger) (hfull : Filed full.ledger)
    (hspared : Spared o rec s full es) :
    outcome o rec s es = outcome o.unpruned rec full es := by
  induction es generalizing s full with
  | nil => rfl
  | cons e es ih =>
    obtain ⟨hharm, hrest⟩ := hspared
    have hd := h.derived hid hs hfull e
    rw [outcome, outcome, ← hd]
    rcases hs' : derived rec s e with _ | st
    · rw [Option.none_or, Option.none_or]
      rcases hpoll : es.any Event.isPoll with _ | _
      · rw [outcome_of_no_poll _ es hpoll, outcome_of_no_poll _ es hpoll]
      · exact ih (h.on hs hid (hharm hpoll)) (filed_on hs e) (filed_on hfull e) (hrest hs')
    · rw [Option.some_or, Option.some_or]

/-- A record without an id has no row. -/
theorem outcome_of_no_id (hid : rec.jobId = none) : ∀ (s : Source) (es : List Event),
    outcome o rec s es = none
  | _, [] => rfl
  | s, e :: es => by
    have hd : derived rec s e = none := by
      cases e with
      | poll ids => rw [derived, lookup, hid]; rfl
      | _ => rfl
    rw [outcome, hd, Option.none_or, outcome_of_no_id hid]

/-- **Pruning does not change the outcome of a polled record it spares.** -/
theorem outcome_unpruned (hs : s.Blank) (es : List Event) (hspared : Spared o rec s s es) :
    outcome o rec s es = outcome o.unpruned rec s es := by
  have hfiled : Filed s.ledger := by rw [hs.ledger]; exact filed_empty
  rcases hid : rec.jobId with _ | id
  · rw [outcome_of_no_id hid, outcome_of_no_id hid]
  · exact outcome_of_alike hid es (Alike.refl rec id s) hfiled hfiled hspared

end

/-- A row of an array element. -/
def element (idx : ℕ) (state : JobState) (finishTime : Option Time) : JobStatus where
  jobId := 7
  arrayIndex := some idx
  state := state
  exitCode := none
  finishTime := finishTime

/-- Payloads of what has changed only: the first element ends with the state `early`, the second
fifteen days later with the state `late`. -/
def longArray (early late : JobState) : List Event :=
  let day : ℤ := 24 * 3600 * second
  let respond (day₀ : ℤ) (sts : List JobStatus) : Event :=
    .respond { token := 0, fetchAt := day₀ * day, now := day₀ * day, statuses := some sts
               servedByFailover := false }
  [.register [7], respond 1 [element 1 early (some day), element 2 .run none], .poll [7],
    respond 16 [], .poll [7], respond 17 [element 2 late (some (17 * day))], .poll [7]]

/-- The record of the array. -/
def arrayRecord : JobRecord where
  jobsetId := "js"
  jobKey := "array"
  jobId := some 7
  state := .run
  generation := 1

/-- The first element is dropped, and the array fails by the second. -/
theorem outcome_unpruned_longArray :
    let o : Options := { failover := false, refreshMinS := none, waitTimeoutS := 5 * second }
    outcome o arrayRecord o.source (longArray .done .exit) = some .exit ∧
      outcome o arrayRecord o.source (longArray .done .exit)
        = outcome o.unpruned arrayRecord o.source (longArray .done .exit) :=
  ⟨by decide +kernel,
    outcome_unpruned ⟨rfl, rfl, rfl⟩ (longArray .done .exit) (by decide +kernel)⟩

/-- The failed element is dropped, and the array counts as `DONE`. -/
theorem not_outcome_unpruned : ¬ ∀ (o : Options) (rec : JobRecord) (s : Source) (es : List Event),
    0 < o.kept → s.Blank → outcome o rec s es = outcome o.unpruned rec s es := by
  intro h
  let o : Options := { failover := false, refreshMinS := none, waitTimeoutS := 5 * second }
  exact absurd (h o arrayRecord o.source (longArray .exit .done) (by decide) ⟨rfl, rfl, rfl⟩)
    (by decide +kernel)

end Lsfmgr.Status
