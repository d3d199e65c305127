import Mathlib
import Lsfmgr.Manager.Delivery
import Lsfmgr.Store.Shape

/-!
# Manager/Ordering — revisions order the delivery

The last revisions are those of the records shown (`Follows`), whatever was written and arrives.  So
a record of the current execution is dropped only for one that arrived as current and is newer.

That one may belong to another execution of the key only if an execution has come back.  Where none
does, `Good` ties the records in the store to those that may still arrive and to those already
shown: within one life of a key an execution takes up a stretch of the revisions, and what was shown
before it lies below that stretch.
-/

namespace Lsfmgr

open Machinery

namespace Delivery

open InMemoryStore (Op Wrote)

/-! ## The loop -/

/-- Of two records of one key, the later delivery has no lower revision. -/
def Ordered (a b : JobRecord) : Prop :=
  a.jobsetId = b.jobsetId → a.jobKey = b.jobKey → a.revision ≤ b.revision

/-- The last revisions of a jobset are those of what was shown. -/
structure Follows (js : String) (revisions : Dict String ℕ) (shown : List JobRecord) : Prop where
  bound : ∀ a ∈ shown, a.jobsetId = js → ∃ e, revisions.get? a.jobKey = some e ∧ a.revision ≤ e
  attained : ∀ k e, revisions.get? k = some e →
    ∃ a ∈ shown, a.jobsetId = js ∧ a.jobKey = k ∧ a.revision = e

section Loop

variable {js : String} {revisions : Dict String ℕ} {shown : List JobRecord}

theorem lt_last_iff {r : JobRecord} :
    (r.revision : ℤ) < ((revisions.get? r.jobKey).map Int.ofNat).getD (-1) ↔
      ∃ e, revisions.get? r.jobKey = some e ∧ r.revision < e := by
  rcases revisions.get? r.jobKey with _ | e
  · simp
  · simp

theorem Follows.accept (h : Follows js revisions shown) {r : JobRecord} (hr : r.jobsetId = js)
    (hge : ∀ e, revisions.get? r.jobKey = some e → e ≤ r.revision) :
    Follows js (revisions.set r.jobKey r.revision) (shown ++ [r]) where
  bound a ha hjs := by
    rw [Dict.get?_set]
    rcases List.mem_append.mp ha with ha | ha
    · obtain ⟨e, he, hle⟩ := h.bound a ha hjs
      split
      case isTrue hk => exact ⟨r.revision, rfl, hle.trans (hge e (hk ▸ he))⟩
      case isFalse => exact ⟨e, he, hle⟩
    · obtain rfl := List.mem_singleton.mp ha
      exact ⟨a.revision, if_pos rfl, le_rfl⟩
  attained k e he := by
    rw [Dict.get?_set] at he
    split at he
    case isTrue hk =>
      exact ⟨r, by simp, hr, hk.symm, Option.some.inj he⟩
    case isFalse =>
      obtain ⟨a, ha, hrest⟩ := h.attained k e he
      exact ⟨a, List.mem_append_left _ ha, hrest⟩

/-- **The loop**: what it lets through continues the order, and what it drops was overtaken by a
record of the same key. -/
theorem acceptLoop_spec {records : List JobRecord} (h : Follows js revisions shown)
    (hord : shown.Pairwise Ordered) (hjs : ∀ r ∈ records, r.jobsetId = js) :
    Follows js (acceptLoop revisions records).2 (shown ++ (acceptLoop revisions records).1) ∧
      (shown ++ (acceptLoop revisions records).1).Pairwise Ordered ∧
      (∀ r ∈ (acceptLoop revisions records).1, r ∈ records) ∧
      ∀ r ∈ records, r ∈ (acceptLoop revisions records).1 ∨
        ∃ a ∈ shown ++ (acceptLoop revisions records).1, a.jobsetId = js ∧ a.jobKey = r.jobKey ∧
          r.revision < a.revision := by
  induction records generalizing revisions shown with
  | nil => simpa [acceptLoop] using ⟨h, hord⟩
  | cons r records ih =>
    obtain ⟨hr, hrest⟩ := List.forall_mem_cons.mp hjs
    rw [acceptLoop]
    split
    case isTrue hlt =>
      obtain ⟨e, he, hlt⟩ := lt_last_iff.mp hlt
      obtain ⟨hf, ho, hsub, hkept⟩ := ih h hord hrest
      refine ⟨hf, ho, fun x hx => List.mem_cons_of_mem _ (hsub x hx),
        List.forall_mem_cons.mpr ⟨.inr ?_, hkept⟩⟩
      obtain ⟨a, ha, hajs, hak, hae⟩ := h.attained r.jobKey e he
      exact ⟨a, List.mem_append_left _ ha, hajs, hak, hae ▸ hlt⟩
    case isFalse hnlt =>
      have hge : ∀ e, revisions.get? r.jobKey = some e → e ≤ r.revision := fun e he =>
        not_lt.mp fun hlt => hnlt (lt_last_iff.mpr ⟨e, he, hlt⟩)
      have hord' : (shown ++ [r]).Pairwise Ordered := by
        refine List.pairwise_append.mpr ⟨hord, List.pairwise_singleton _ _, fun a ha b hb => ?_⟩
        obtain rfl := List.mem_singleton.mp hb
        intro hjs' hk
        obtain ⟨e, he, hle⟩ := h.bound a ha (hjs'.trans hr)
        exact hle.trans (hge e (hk ▸ he))
      obtain ⟨hf, ho, hsub, hkept⟩ := ih (h.accept hr hge) hord' hrest
      simp only [List.append_assoc, List.singleton_append] at hf ho hkept
      refine ⟨hf, ho, List.forall_mem_cons.mpr ⟨List.mem_cons_self, fun x hx =>
        List.mem_cons_of_mem _ (hsub x hx)⟩, List.forall_mem_cons.mpr
        ⟨.inl List.mem_cons_self, fun x hx => ?_⟩⟩
      rcases hkept x hx with hin | hover
      · exact .inl (List.mem_cons_of_mem _ hin)
      · exact .inr hover

end Loop

/-! ## Revisions and executions -/

/-- **What the revisions of a key mean.** -/
structure Good (s : InMemoryStore) (written shown : List JobRecord) : Prop where
  placed : s.Placed
  stored : ∀ js k r, s.job? js k = some r → r ∈ written
  /-- No record of the current execution is newer than the one in the store. -/
  newest : ∀ r ∈ written, ∀ cur, s.job? r.jobsetId r.jobKey = some cur →
    r.generation = cur.generation → r.revision ≤ cur.revision
  live : ∀ a ∈ shown, ∃ cur, s.job? a.jobsetId a.jobKey = some cur ∧ a.revision ≤ cur.revision
  /-- What was shown of an earlier execution is older than the current execution. -/
  older : ∀ a ∈ shown, ∀ cur, s.job? a.jobsetId a.jobKey = some cur →
    a.generation ≠ cur.generation → ∀ r ∈ written, r.jobsetId = a.jobsetId → r.jobKey = a.jobKey →
      r.generation = cur.generation → a.revision < r.revision

theorem good_empty : Good {} [] [] where
  placed := InMemoryStore.placed_empty
  stored _ _ _ h := by simp [InMemoryStore.job?] at h
  newest _ h := by simp at h
  live _ h := by simp at h
  older _ h := by simp at h

section Good

variable {s s₁ : InMemoryStore} {written shown : List JobRecord} {new : JobRecord}

theorem Good.subset {written' : List JobRecord} (h : Good s written shown)
    (hsub : ∀ r ∈ written', r ∈ written) (hst : ∀ js k r, s.job? js k = some r → r ∈ written') :
    Good s written' shown where
  placed := h.placed
  stored := hst
  newest r hr := h.newest r (hsub r hr)
  live := h.live
  older a ha cur hcur hne r hr := h.older a ha cur hcur hne r (hsub r hr)

/-- **One write**: over a record it takes the next revision, and it stays in the execution or starts
one that never was. -/
theorem Good.put (h : Good s written shown)
    (hw : Wrote s new.jobsetId new.jobKey (some new) s₁)
    (hrev : ∀ old, s.job? new.jobsetId new.jobKey = some old → new.revision = old.revision + 1)
    (hgen : (∃ old, s.job? new.jobsetId new.jobKey = some old ∧ new.generation = old.generation) ∨
      ∀ r ∈ written, r.generation ≠ new.generation) : Good s₁ (new :: written) shown := by
  have hsame : ∀ r ∈ written, r.jobsetId = new.jobsetId → r.jobKey = new.jobKey →
      r.generation = new.generation → ∃ old, s.job? new.jobsetId new.jobKey = some old ∧
        r.generation = old.generation ∧ new.generation = old.generation := by
    intro r hr hjs hk hg
    obtain ⟨old, hold, hgold⟩ | hfresh := hgen
    · exact ⟨old, hold, hg.trans hgold, hgold⟩
    · exact absurd hg (hfresh r hr)
  refine ⟨hw.placed h.placed, fun js k r hr => ?_, fun r hr cur hcur hg => ?_, fun a ha => ?_,
    fun a ha cur hcur hne r hr hjs hk hg => ?_⟩
  · rw [hw.job?] at hr
    split at hr
    case isTrue => exact Option.some.inj hr ▸ List.mem_cons_self
    case isFalse => exact List.mem_cons_of_mem _ (h.stored js k r hr)
  · rw [hw.job?] at hcur
    split at hcur
    case isTrue hc =>
      obtain rfl := Option.some.inj hcur
      rcases List.mem_cons.mp hr with rfl | hr
      · exact le_rfl
      · obtain ⟨old, hold, hgr, -⟩ := hsame r hr hc.1 hc.2 hg
        have hle := h.newest r hr old (by rw [hc.1, hc.2]; exact hold) hgr
        have := hrev old hold
        omega
    case isFalse hc =>
      rcases List.mem_cons.mp hr with rfl | hr
      · exact absurd ⟨rfl, rfl⟩ hc
      · exact h.newest r hr cur hcur hg
  · obtain ⟨old, hold, hle⟩ := h.live a ha
    rw [hw.job?]
    split
    case isTrue hc =>
      have := hrev old (by rw [← hc.1, ← hc.2]; exact hold)
      exact ⟨new, rfl, by omega⟩
    case isFalse => exact ⟨old, hold, hle⟩
  · rw [hw.job?] at hcur
    split at hcur
    case isTrue hc =>
      obtain rfl := Option.some.inj hcur
      obtain ⟨old, hold, hle⟩ := h.live a ha
      have hnext := hrev old (by rw [← hc.1, ← hc.2]; exact hold)
      rcases List.mem_cons.mp hr with rfl | hr
      · omega
      · obtain ⟨old', hold', hgr, hgold⟩ := hsame r hr (hjs.trans hc.1) (hk.trans hc.2) hg
        exact h.older a ha old' (by rw [hc.1, hc.2]; exact hold') (hgold ▸ hne) r hr hjs hk hgr
    case isFalse hc =>
      rcases List.mem_cons.mp hr with rfl | hr
      · exact absurd ⟨hjs.symm, hk.symm⟩ hc
      · exact h.older a ha cur hcur hne r hr hjs hk hg

/-- A write that touches no record. -/
theorem Good.sameJobs (h : Good s written shown) (hp : s₁.Placed)
    (hjob : ∀ js k, s₁.job? js k = s.job? js k) : Good s₁ written shown where
  placed := hp
  stored js k r hr := h.stored js k r (hjob js k ▸ hr)
  newest r hr cur hcur := h.newest r hr cur (hjob _ _ ▸ hcur)
  live a ha := by simpa only [hjob] using h.live a ha
  older a ha cur hcur := h.older a ha cur (hjob _ _ ▸ hcur)

/-- A removal only takes records away. -/
theorem Good.remove {shown' : List JobRecord} (h : Good s written shown) (hp : s₁.Placed)
    (hsub : ∀ js k r, s₁.job? js k = some r → s.job? js k = some r)
    (hshown : ∀ a ∈ shown', a ∈ shown ∧ (s₁.job? a.jobsetId a.jobKey).isSome) :
    Good s₁ written shown' where
  placed := hp
  stored js k r hr := h.stored js k r (hsub js k r hr)
  newest r hr cur hcur := h.newest r hr cur (hsub _ _ _ hcur)
  live a ha := by
    obtain ⟨hin, hlive⟩ := hshown a ha
    obtain ⟨cur, hcur⟩ := Option.isSome_iff_exists.mp hlive
    obtain ⟨cur', hcur', hle⟩ := h.live a hin
    obtain rfl := Option.some.inj ((hsub _ _ _ hcur).symm.trans hcur')
    exact ⟨cur, hcur, hle⟩
  older a ha cur hcur := h.older a (hshown a ha).1 cur (hsub _ _ _ hcur)

end Good

/-! ## Every write -/

section Writes

variable {s s₁ : InMemoryStore} {written shown : List JobRecord} {js : String} {now : Time}

theorem storeInsertJobset_job? {record out : JobSetRecord} (hp : s.Placed)
    (h : s.storeInsertJobset now record = .ok (out, s₁)) (js k : String) :
    s₁.job? js k = s.job? js k := by
  rw [InMemoryStore.storeInsertJobset] at h
  split at h
  case isTrue => cases h
  case isFalse hfree =>
    obtain ⟨-, rfl⟩ := Prod.mk.inj (Except.ok.inj h)
    have hnone : s.jobs.get? record.jobsetId = none :=
      Dict.get?_eq_none.mpr fun hm => hfree ((hp.jobs_iff _).mp hm)
    simp only [InMemoryStore.job?, Dict.get?_set, hnone]
    split
    case isTrue heq => subst heq; simp [hnone]
    case isFalse => rfl

theorem updateJobset_job? {record out : JobSetRecord}
    (h : s.updateJobset record = .ok (out, s₁)) (js k : String) : s₁.job? js k = s.job? js k := by
  rw [InMemoryStore.updateJobset] at h
  split at h
  case isTrue => obtain ⟨-, rfl⟩ := Prod.mk.inj (Except.ok.inj h); rfl
  case isFalse => cases h

theorem foldl_put_generation (fields : List Field) (r : JobRecord) :
    (fields.foldl (fun r f => f.put r) r).generation = r.generation ∨
      (fields.foldl (fun r f => f.put r) r).generation ∈ fieldGenerations fields := by
  induction fields generalizing r with
  | nil => exact .inl rfl
  | cons f fields ih =>
    have hsub : ∀ g ∈ fieldGenerations fields, g ∈ fieldGenerations (f :: fields) := fun g hg => by
      rw [fieldGenerations, List.filterMap_cons]
      split
      · exact hg
      · exact List.mem_cons_of_mem _ hg
    rcases ih (f.put r) with heq | hin
    · rw [List.foldl_cons, heq]
      cases f with
      | generation g => exact .inr List.mem_cons_self
      | _ => exact .inl rfl
    · exact .inr (hsub _ hin)

theorem batchWrite_generation (now : Time) (spec : TransitionSpec) (old : JobRecord) :
    (InMemoryStore.batchWrite now spec old).generation = old.generation ∨
      (InMemoryStore.batchWrite now spec old).generation ∈ fieldGenerations spec.fields := by
  rw [InMemoryStore.batchWrite]
  split
  · exact foldl_put_generation spec.fields old
  · exact .inl rfl

/-- The generations of a write that is over no longer count, but those of the rest stay fresh. -/
theorem Fresh.next {gens gens' : List ℕ} {new : JobRecord} (h : Fresh written (gens ++ gens'))
    (hnew : (∃ r ∈ written, new.generation = r.generation) ∨ new.generation ∈ gens) :
    Fresh (new :: written) gens' := by
  obtain ⟨hnd, hfresh⟩ := h
  obtain ⟨-, hnd', hdisj⟩ := List.nodup_append.mp hnd
  refine ⟨hnd', fun g hg r hr => ?_⟩
  have hg' := hfresh g (List.mem_append_right _ hg)
  rcases List.mem_cons.mp hr with rfl | hr
  · rcases hnew with ⟨r', hr', heq⟩ | hin
    · exact heq ▸ hg' r' hr'
    · exact hdisj _ hin g hg
  · exact hg' r hr

theorem Fresh.tail {gens gens' : List ℕ} (h : Fresh written (gens ++ gens')) :
    Fresh written gens' :=
  ⟨(List.nodup_append.mp h.1).2.1, fun g hg => h.2 g (List.mem_append_right _ hg)⟩

theorem Good.transitionManyImpl (js : String) (now : Time) {specs : List TransitionSpec}
    (h : Good s written shown)
    (hk : InMemoryStore.NoKeyField specs)
    (hfresh : Fresh written (specs.flatMap fun spec => fieldGenerations spec.fields)) :
    ∃ news, Good (s.transitionManyImpl now js specs).2 (news ++ written) shown ∧
      ∀ out, (s.transitionManyImpl now js specs).1 = .ok out → ∀ r ∈ out, r ∈ news := by
  induction specs generalizing s written with
  | nil => exact ⟨[], h, fun out hout r hr => by cases hout; exact hr⟩
  | cons spec specs ih =>
    obtain ⟨hk₁, hk⟩ := List.forall_mem_cons.mp hk
    rw [List.flatMap_cons] at hfresh
    cases InMemoryStore.batchStep h.placed now specs hk₁ with
    | gone hj heq => rw [heq]; exact ih h hk hfresh.tail
    | refused hj hr hw heq => rw [heq]; exact ih h hk hfresh.tail
    | raised hj hr heq => rw [heq]; exact ⟨[], h, fun out hout => by cases hout⟩
    | @written old s₂ hj hr hw hwrote heq =>
      obtain ⟨hjs, hkey, hrev⟩ := InMemoryStore.batchWrite_ids now h.placed hk₁ hw hj
      have hold := h.stored _ _ _ hj
      have hgen := batchWrite_generation now spec old
      have hput : Good s₂ (InMemoryStore.batchWrite now spec old :: written) shown := h.put
        (by rw [hjs, hkey]; exact hwrote)
        (fun old' hold' => by
          rw [hjs, hkey, hj] at hold'
          exact Option.some.inj hold' ▸ hrev)
        (hgen.imp (fun heq' => ⟨old, by rw [hjs, hkey]; exact hj, heq'⟩) fun hin r hr =>
          hfresh.2 _ (List.mem_append_left _ hin) r hr)
      obtain ⟨news, hgood, hout⟩ := ih hput hk
        (hfresh.next (hgen.imp (fun heq' => ⟨old, hold, heq'⟩) id))
      rw [heq]
      refine ⟨news ++ [InMemoryStore.batchWrite now spec old], by simpa using hgood,
        fun out hok r hr => ?_⟩
      obtain ⟨rest, hrest, rfl⟩ := except_map_eq_ok.mp hok
      rcases List.mem_cons.mp hr with rfl | hr
      · simp
      · exact List.mem_append_left _ (hout rest hrest r hr)

theorem checkNewJobs_nodup {seen : List (String × String)} {records : List JobRecord}
    (h : s.checkNewJobs seen records = .ok ()) :
    (records.map fun r => (r.jobsetId, r.jobKey)).Nodup ∧
      ∀ r ∈ records, (r.jobsetId, r.jobKey) ∉ seen := by
  induction records generalizing seen with
  | nil => simp
  | cons r records ih =>
    rw [InMemoryStore.checkNewJobs] at h
    split at h
    case isFalse => cases h
    case isTrue =>
      split at h
      case h_1 => cases h
      case h_2 =>
        split at h
        case isTrue => cases h
        case isFalse hfree =>
          obtain ⟨hnd, hseen⟩ := ih h
          refine ⟨?_, List.forall_mem_cons.mpr ⟨fun hm => hfree (.inl hm), fun x hx hm =>
            hseen x hx (List.mem_cons_of_mem _ hm)⟩⟩
          rw [List.map_cons, List.nodup_cons]
          refine ⟨fun hm => ?_, hnd⟩
          obtain ⟨x, hx, heq⟩ := List.mem_map.mp hm
          exact hseen x hx (heq ▸ List.mem_cons_self)

theorem Good.putAll (now : Time) {records : List JobRecord} (h : Good s written shown)
    (hjs : ∀ r ∈ records, r.jobsetId ∈ s.jobs.keys)
    (hfree : ∀ r ∈ records, s.job? r.jobsetId r.jobKey = none)
    (hnd : (records.map fun r => (r.jobsetId, r.jobKey)).Nodup)
    (hfresh : Fresh written (records.map (·.generation))) :
    ∃ news, Good (s.putAll now records).2 (news ++ written) shown ∧
      ∀ out, (s.putAll now records).1 = .ok out → ∀ r ∈ out, r ∈ news := by
  induction records generalizing s written with
  | nil => exact ⟨[], h, fun out hout r hr => by cases hout; exact hr⟩
  | cons r records ih =>
    obtain ⟨hr, hjs⟩ := List.forall_mem_cons.mp hjs
    obtain ⟨hrfree, hfree⟩ := List.forall_mem_cons.mp hfree
    rw [List.map_cons, List.nodup_cons] at hnd
    rw [List.map_cons] at hfresh
    obtain ⟨s₁, hs₁, hw⟩ := InMemoryStore.putRec_wrote (s := s)
      (r := { r with updatedAt := some (r.updatedAt.getD now) }) hr
    have hput := h.put hw (fun old hold => by simp [hrfree] at hold)
      (.inr fun x hx => hfresh.2 r.generation List.mem_cons_self x hx)
    obtain ⟨news, hgood, hout⟩ := ih hput
      (fun x hx => by
        rw [(hw.placed h.placed).jobs_iff, hw.jobsets, ← h.placed.jobs_iff]
        exact hjs x hx)
      (fun x hx => by
        rw [hw.job?, if_neg fun hc => hnd.1 (List.mem_map.mpr ⟨x, hx, Prod.ext hc.1 hc.2⟩)]
        exact hfree x hx)
      hnd.2 (Fresh.next (show Fresh written ([r.generation] ++ _) from hfresh)
        (.inr (List.mem_singleton.mpr rfl)))
    refine ⟨news ++ [{ r with updatedAt := some (r.updatedAt.getD now) }],
      by simpa [InMemoryStore.putAll, hs₁] using hgood, fun out hok x hx => ?_⟩
    simp only [InMemoryStore.putAll, hs₁] at hok
    obtain ⟨rest, hrest, rfl⟩ := except_map_eq_ok.mp hok
    rcases List.mem_cons.mp hx with rfl | hx
    · simp
    · exact List.mem_append_left _ (hout rest hrest x hx)

/-- **A write of any kind**, successful or not, keeps the invariant for what it wrote and
returned. -/
theorem Good.perform {op : Op} (hr : s.Represented) (h : Good s written shown)
    (hrem : removes op = false) (hrenews : Renews s written op) :
    ∃ news, Good (s.perform op).2 (news ++ written) shown ∧
      ∀ r ∈ s.returned op, r ∈ news := by
  have hsingle : ∀ {new : JobRecord} {s' : InMemoryStore} {jobsetId k : String},
      Wrote s jobsetId k (some new) s' → new.jobsetId = jobsetId → new.jobKey = k →
      (∀ old, s.job? jobsetId k = some old → new.revision = old.revision + 1) →
      ((∃ old, s.job? jobsetId k = some old ∧ new.generation = old.generation) ∨
        ∃ gens, Fresh written gens ∧ new.generation ∈ gens) → Good s' (new :: written) shown := by
    rintro new s' _ _ hw rfl rfl hrev hgen
    exact h.put hw hrev (hgen.imp_right fun ⟨_, hfresh, hin⟩ r hr => hfresh.2 _ hin r hr)
  cases op with
  | insertJobset now record =>
    refine ⟨[], ?_, fun r hr => by cases hr⟩
    rw [InMemoryStore.perform]
    rcases hs : s.storeInsertJobset now record with e | ⟨out, s'⟩
    · exact h
    · exact h.sameJobs (hr.storeInsertJobset hs).placed (storeInsertJobset_job? h.placed hs)
  | updateJobset record =>
    refine ⟨[], ?_, fun r hr => by cases hr⟩
    rw [InMemoryStore.perform]
    rcases hs : s.updateJobset record with e | ⟨out, s'⟩
    · exact h
    · exact h.sameJobs (hr.updateJobset hs).placed (updateJobset_job? hs)
  | deleteJobset | deleteJob | deleteJobs => cases hrem
  | addJob now r =>
    rw [InMemoryStore.perform, InMemoryStore.returned]
    rcases hs : s.storeAddJob now r with e | ⟨out, s'⟩
    · exact ⟨[], h, fun r hr => by cases hr⟩
    · obtain ⟨rfl, hfree, hw⟩ := InMemoryStore.storeAddJob_ok hs
      exact ⟨[_], hsingle hw rfl rfl (fun old hold => by simp [hfree] at hold)
        (.inr ⟨_, hrenews, List.mem_cons_self⟩), fun x hx => hx⟩
  | addJobs now records =>
    rw [InMemoryStore.perform, InMemoryStore.batch_snd, InMemoryStore.returned,
      InMemoryStore.storeAddJobs]
    split
    case h_1 => exact ⟨[], h, fun r hr => by cases hr⟩
    case h_2 heq =>
      obtain ⟨news, hgood, hout⟩ := h.putAll now (InMemoryStore.checkNewJobs_ok heq)
        (InMemoryStore.checkNewJobs_free heq) (checkNewJobs_nodup heq).1 hrenews
      refine ⟨news, hgood, fun r hr => ?_⟩
      split at hr
      case h_1 out hok => exact hout out hok r hr
      case h_2 => cases hr
  | updateJob now r =>
    rw [InMemoryStore.perform, InMemoryStore.returned]
    rcases hs : s.updateJob now r with e | ⟨out, s'⟩
    · exact ⟨[], h, fun r hr => by cases hr⟩
    · obtain ⟨old, hold, rfl, hw⟩ := InMemoryStore.updateJob_ok hs
      have hgen : r.generation = old.generation ∨ Fresh written [r.generation] := by
        refine hrenews.imp_left fun hkeeps => ?_
        rw [Keeps, hold] at hkeeps
        exact (of_decide_eq_true hkeeps).symm
      exact ⟨[_], hsingle hw rfl rfl (fun old' hold' => by
        rw [hold] at hold'
        exact Option.some.inj hold' ▸ rfl)
        (hgen.imp (fun heq => ⟨old, hold, heq⟩) fun hfresh => ⟨_, hfresh, List.mem_cons_self⟩),
        fun x hx => hx⟩
  | transition now js k ns guard fields =>
    rw [InMemoryStore.perform, InMemoryStore.returned]
    rcases hs : s.transition now js k ns guard fields with e | ⟨out, s'⟩
    · exact ⟨[], h, fun r hr => by cases hr⟩
    · obtain ⟨rfl, rfl⟩ | ⟨old, new, rfl, hold, rfl, hf, hw⟩ :=
        InMemoryStore.transition_ok h.placed hs
      · exact ⟨[], h, fun r hr => by cases hr⟩
      · obtain ⟨hjs, hk⟩ := h.placed.own _ _ _ hold
        obtain ⟨h₁, h₂⟩ := InMemoryStore.rewrite_ids now hf old (ns.getD old.state)
          old.revision
        exact ⟨[_], hsingle hw (h₁.trans hjs) (h₂.trans hk) (fun old' hold' => by
          rw [hold] at hold'
          exact Option.some.inj hold' ▸ rfl)
          ((foldl_put_generation fields old).imp (fun heq => ⟨old, hold, heq⟩)
            fun hin => ⟨_, hrenews, hin⟩), fun x hx => hx⟩
  | transitionMany now js specs =>
    rw [InMemoryStore.perform, InMemoryStore.batch_snd, InMemoryStore.returned,
      InMemoryStore.transitionMany]
    split
    case h_1 => exact ⟨[], h, fun r hr => by cases hr⟩
    case h_2 heq =>
      obtain ⟨news, hgood, hout⟩ := h.transitionManyImpl js now
        (List.findSome?_eq_none_iff.mp heq) hrenews
      refine ⟨news, hgood, fun r hr => ?_⟩
      split at hr
      case h_1 out hok => exact hout out hok r hr
      case h_2 => cases hr

theorem putAll_keeps (now : Time) {records : List JobRecord} {js k : String}
    (h : (s.job? js k).isSome) : ((s.putAll now records).2.job? js k).isSome := by
  induction records generalizing s with
  | nil => exact h
  | cons r records ih =>
    rw [InMemoryStore.putAll]
    rcases hj : s.jobs.get? r.jobsetId with _ | jobs
    · simp only [InMemoryStore.putRec, hj]
      exact h
    · obtain ⟨s₁, hs₁, hw⟩ := InMemoryStore.putRec_wrote (s := s)
        (r := { r with updatedAt := some (r.updatedAt.getD now) }) (Dict.mem_keys.mpr ⟨jobs, hj⟩)
      simp only [hs₁]
      refine ih ?_
      rw [hw.job?]
      split
      · rfl
      · exact h

/-- **A write that removes nothing** leaves every key alive. -/
theorem perform_keeps (hr : s.Represented) {op : Op} (hrem : removes op = false) {js k : String}
    (h : (s.job? js k).isSome) : ((s.perform op).2.job? js k).isSome := by
  have hwrote : ∀ {js' k' : String} {new : JobRecord} {s' : InMemoryStore},
      Wrote s js' k' (some new) s' → (s'.job? js k).isSome := by
    intro js' k' new s' hw
    rw [hw.job?]
    split
    · rfl
    · exact h
  cases op with
  | insertJobset now record =>
    rw [InMemoryStore.perform]
    rcases hs : s.storeInsertJobset now record with e | ⟨out, s'⟩
    · exact h
    · exact (storeInsertJobset_job? hr.placed hs js k).symm ▸ h
  | updateJobset record =>
    rw [InMemoryStore.perform]
    rcases hs : s.updateJobset record with e | ⟨out, s'⟩
    · exact h
    · exact (updateJobset_job? hs js k).symm ▸ h
  | deleteJobset | deleteJob | deleteJobs => cases hrem
  | addJob now r =>
    rw [InMemoryStore.perform]
    rcases hs : s.storeAddJob now r with e | ⟨out, s'⟩
    · exact h
    · exact hwrote (InMemoryStore.storeAddJob_ok hs).2.2
  | addJobs now records =>
    rw [InMemoryStore.perform, InMemoryStore.batch_snd, InMemoryStore.storeAddJobs]
    split
    · exact h
    · exact putAll_keeps now h
  | updateJob now r =>
    rw [InMemoryStore.perform]
    rcases hs : s.updateJob now r with e | ⟨out, s'⟩
    · exact h
    · obtain ⟨old, -, -, hw⟩ := InMemoryStore.updateJob_ok hs
      exact hwrote hw
  | transition now js' k' ns guard fields =>
    rw [InMemoryStore.perform]
    rcases hs : s.transition now js' k' ns guard fields with e | ⟨out, s'⟩
    · exact h
    · exact ((InMemoryStore.transition_touched hr.placed hs).keys js k (Set.notMem_empty js)).mpr h
  | transitionMany now js' specs =>
    rw [InMemoryStore.perform, InMemoryStore.batch_snd]
    exact ((InMemoryStore.transitionMany_touched now js' specs hr.placed).keys js k
      (Set.notMem_empty js)).mpr h

end Writes

/-! ## The whole state -/

/-- **The invariant of the main thread.** -/
structure Inv (s : State) : Prop where
  represented : s.store.Represented
  live : ∀ a ∈ s.shown, (s.store.job? a.jobsetId a.jobKey).isSome
  follows : ∀ js, Follows js ((s.emitted.get? js).getD ∅) s.shown
  ordered : s.shown.Pairwise Ordered

theorem inv_init : Inv {} where
  represented := InMemoryStore.represented_empty
  live _ h := by simp at h
  follows _ := ⟨fun _ h => by simp at h, fun _ _ h => by simp at h⟩
  ordered := List.Pairwise.nil

theorem currentRecords_iff {s : InMemoryStore} {js : String} {records : List JobRecord}
    {r : JobRecord} : r ∈ currentRecords s js records ↔
      r ∈ records ∧ ∃ cur, s.job? js r.jobKey = some cur ∧ r.sameExecution cur = true := by
  rw [currentRecords, List.mem_filter]
  refine and_congr_right fun hr => ?_
  rw [InMemoryStore.get?_getJobsByKeys s _ (List.mem_map_of_mem hr), Option.any_eq_true]

theorem currentRecords_spec {s : InMemoryStore} (hp : s.Placed) {js : String}
    {records : List JobRecord} {r : JobRecord} (hr : r ∈ currentRecords s js records) :
    r.jobsetId = js ∧ ∃ cur, s.job? js r.jobKey = some cur ∧ r.generation = cur.generation := by
  obtain ⟨-, cur, hcur, hsame⟩ := currentRecords_iff.mp hr
  obtain ⟨hjs, -, hgen⟩ := JobRecord.sameExecution_iff.mp hsame
  exact ⟨hjs.trans (hp.own _ _ _ hcur).1, cur, hcur, hgen⟩

/-- What `emit_jobs` does, in one place. -/
theorem Inv.emitJobs {s : State} (h : Inv s) (js : String) (records : List JobRecord) :
    (∀ r ∈ (emitJobs s.store s.emitted js records).1, r ∈ currentRecords s.store js records) ∧
      (∀ js', Follows js' (((emitJobs s.store s.emitted js records).2.get? js').getD ∅)
        (s.shown ++ (emitJobs s.store s.emitted js records).1)) ∧
      (s.shown ++ (emitJobs s.store s.emitted js records).1).Pairwise Ordered ∧
      ∀ r ∈ currentRecords s.store js records, r ∈ (emitJobs s.store s.emitted js records).1 ∨
        ∃ a ∈ s.shown ++ (emitJobs s.store s.emitted js records).1, a.jobsetId = js ∧
          a.jobKey = r.jobKey ∧ r.revision < a.revision := by
  have hjs : ∀ r ∈ currentRecords s.store js records, r.jobsetId = js := fun r hr =>
    (currentRecords_spec h.represented.placed hr).1
  rw [Delivery.emitJobs]
  generalize currentRecords s.store js records = current at hjs
  split
  case isTrue hnil => simpa [hnil] using ⟨h.follows, h.ordered⟩
  case isFalse =>
    obtain ⟨hf, ho, hsub, hkept⟩ := acceptLoop_spec (h.follows js) h.ordered hjs
    refine ⟨hsub, fun js' => ?_, ho, hkept⟩
    simp only [Dict.get?_set]
    split
    case isTrue heq => subst heq; exact hf
    case isFalse hne =>
      -- nothing of another jobset was let through
      refine ⟨fun a ha hajs => ?_, fun k e he => ?_⟩
      · rcases List.mem_append.mp ha with ha | ha
        · exact (h.follows js').bound a ha hajs
        · exact absurd (hajs.symm.trans (hjs a (hsub a ha))) hne
      · obtain ⟨a, ha, hrest⟩ := (h.follows js').attained k e he
        exact ⟨a, List.mem_append_left _ ha, hrest⟩

/-! ## Removal -/

section Removal

variable {js : String}

/-- Forgetting some keys leaves the others. -/
theorem get?_forgetRevisions (emitted : Emitted) (keys : Option (List String)) (js' k : String) :
    (((forgetRevisions emitted js keys).get? js').getD ∅).get? k =
      if js' = js ∧ keys.all (k ∈ ·) then none else ((emitted.get? js').getD ∅).get? k := by
  cases keys with
  | none =>
    by_cases hjs : js' = js <;> simp [forgetRevisions, Dict.get?_erase, hjs]
  | some keys =>
    have hfold := Dict.get?_foldl_erase ((emitted.get? js).getD ∅) keys k
    simp only [forgetRevisions, Option.all_some, decide_eq_true_eq]
    by_cases hjs : js' = js
    · subst hjs
      split
      case isTrue hnil =>
        have hnone : (keys.foldl Dict.erase ((emitted.get? js').getD ∅)).get? k = none :=
          Dict.get?_eq_none.mpr (by rw [hnil]; exact List.not_mem_nil)
        rw [hnone] at hfold
        simpa using hfold
      case isFalse => simpa using hfold
    · split <;> simp [Dict.get?_erase, Dict.get?_set, hjs]

/-- **A removal** forgets exactly the keys that are gone. -/
theorem Inv.remove {s : State} (h : Inv s) {store : InMemoryStore} {keys : Option (List String)}
    (hr : store.Represented)
    (hjob : ∀ js' k, store.job? js' k =
      if js' = js ∧ keys.all (k ∈ ·) then none else s.store.job? js' k) :
    Inv (s.remove store js keys) where
  represented := hr
  live a ha := (List.mem_filter.mp ha).2
  follows js' := by
    refine ⟨fun a ha hajs => ?_, fun k e he => ?_⟩
    · obtain ⟨hin, hlive⟩ := List.mem_filter.mp ha
      rw [hjob, hajs] at hlive
      simp only [State.remove, get?_forgetRevisions]
      split at hlive
      case isTrue => cases hlive
      case isFalse hc =>
        rw [if_neg hc]
        exact (h.follows js').bound a hin hajs
    · simp only [State.remove, get?_forgetRevisions] at he
      split at he
      case isTrue => cases he
      case isFalse hc =>
        obtain ⟨a, ha, hajs, hak, hae⟩ := (h.follows js').attained k e he
        refine ⟨a, List.mem_filter.mpr ⟨ha, ?_⟩, hajs, hak, hae⟩
        rw [hjob, hajs, hak, if_neg hc, ← hajs, ← hak]
        exact h.live a ha
  ordered := h.ordered.filter _

/-- What a bulk deletion leaves, and what it returns. -/
theorem storeDeleteJobs_spec (js : String) {s : InMemoryStore} (hp : s.Placed) (ks : List String) :
    (∀ js' k, (s.storeDeleteJobs js ks).2.job? js' k =
      if js' = js ∧ k ∈ ks then none else s.job? js' k) ∧
    ∀ k, k ∈ (s.storeDeleteJobs js ks).1.map (·.jobKey) ↔ k ∈ ks ∧ (s.job? js k).isSome := by
  induction ks generalizing s with
  | nil => simp [InMemoryStore.storeDeleteJobs]
  | cons k ks ih =>
    rw [InMemoryStore.storeDeleteJobs]
    rcases s.dropRec_cases js k with ⟨hnone, hdrop⟩ | ⟨old, s₁, hold, hdrop, hw⟩
    · simp only [hdrop]
      obtain ⟨hjob, hret⟩ := ih hp
      refine ⟨fun js' k' => ?_, fun k' => ?_⟩
      · rw [hjob]
        by_cases hk : js' = js ∧ k' = k
        · obtain ⟨rfl, rfl⟩ := hk
          simp [hnone]
        · by_cases hjs : js' = js <;> simp_all
      · rw [hret]
        by_cases hk : k' = k <;> simp_all
    · simp only [hdrop]
      obtain ⟨hjob, hret⟩ := ih (hw.placed hp)
      obtain ⟨-, hkey⟩ := hp.own _ _ _ hold
      refine ⟨fun js' k' => ?_, fun k' => ?_⟩
      · rw [hjob, hw.job?]
        by_cases hjs : js' = js <;> by_cases hk : k' = k <;> simp_all
      · rw [List.map_cons, List.mem_cons, hret, hw.job?, hkey]
        by_cases hk : k' = k <;> simp_all

end Removal

/-! ## Every run -/

/-- Everything a step can do. -/
theorem step_cases {s s' : State} {a : Act} (hr : s.store.Represented) (hs : step s a = some s') :
    (∃ op, a = .write op ∧ removes op = false ∧ s' = { s with
        store := (s.store.perform op).2
        written := s.store.returned op ++ (s.store.perform op).2.records ++ s.written }) ∨
    (∃ store js keys, s' = s.remove store js keys ∧ store.Represented ∧
      ∀ js' k, store.job? js' k =
        if js' = js ∧ keys.all (k ∈ ·) then none else s.store.job? js' k) ∨
    ∃ js records, a = .emit js records ∧ (∀ r ∈ records, r ∈ s.written) ∧ s' = { s with
      emitted := (emitJobs s.store s.emitted js records).2
      shown := s.shown ++ (emitJobs s.store s.emitted js records).1 } := by
  cases a with
  | write op =>
    simp only [Delivery.step] at hs
    split at hs
    case isFalse => cases hs
    case isTrue hc => exact .inl ⟨op, rfl, hc, (Option.some.inj hs).symm⟩
  | removeJobs js ks =>
    obtain ⟨hjob, hret⟩ := storeDeleteJobs_spec js hr.placed ks
    refine .inr (.inl ⟨_, _, _, (Option.some.inj hs).symm, hr.storeDeleteJobs js ks,
      fun js' k => ?_⟩)
    rw [hjob]
    simp only [Option.all_some, decide_eq_true_eq, hret]
    by_cases hjs : js' = js
    · subst hjs
      rcases hold : s.store.job? js' k with _ | r <;> simp
    · simp [hjs]
  | clearJobs js =>
    obtain ⟨hjob, -⟩ := storeDeleteJobs_spec js hr.placed ((s.store.jobs.get? js).getD ∅).keys
    refine .inr (.inl ⟨_, _, _, (Option.some.inj hs).symm, hr.storeDeleteJobs js _,
      fun js' k => ?_⟩)
    rw [hjob]
    by_cases hjs : js' = js
    · subst hjs
      simp only [true_and, Option.all_none, if_true]
      split
      case isTrue => rfl
      case isFalse hk =>
        rw [InMemoryStore.mem_keys_iff] at hk
        simpa using hk
    · simp [hjs]
  | removeJobset js =>
    refine .inr (.inl ⟨_, _, _, (Option.some.inj hs).symm, hr.storeDeleteJobset js,
      fun js' k => ?_⟩)
    rw [InMemoryStore.job?_storeDeleteJobset]
    simp
  | emit js records =>
    simp only [Delivery.step] at hs
    split at hs
    case isFalse => cases hs
    case isTrue hin => exact .inr (.inr ⟨js, records, rfl, hin, (Option.some.inj hs).symm⟩)

theorem Inv.step {s s' : State} {a : Act} (h : Inv s) (hs : step s a = some s') : Inv s' := by
  obtain ⟨op, -, hrem, rfl⟩ | ⟨store, js, keys, rfl, hr, hjob⟩ | ⟨js, records, -, -, rfl⟩ :=
    step_cases h.represented hs
  · exact ⟨h.represented.perform op, fun a ha => perform_keeps h.represented hrem (h.live a ha),
      h.follows, h.ordered⟩
  · exact h.remove hr hjob
  · obtain ⟨hsub, hf, ho, -⟩ := h.emitJobs js records
    refine ⟨h.represented, fun a ha => ?_, hf, ho⟩
    rcases List.mem_append.mp ha with ha | ha
    · exact h.live a ha
    · obtain ⟨hjs, cur, hcur, -⟩ := currentRecords_spec h.represented.placed (hsub a ha)
      exact Option.isSome_iff_exists.mpr ⟨cur, by rw [hjs]; exact hcur⟩

theorem inv_of_reachable {s : State} (h : system.Reachable s) : Inv s :=
  h.invariant (fun _ h => h ▸ inv_init) fun _ _ _ _ h _ hs => h.step hs

theorem Good.step {s s' : State} {a : Act} (hi : Inv s) (h : Good s.store s.written s.shown)
    (hc : Renewing s a) (hs : Delivery.step s a = some s') : Good s'.store s'.written s'.shown := by
  obtain ⟨op, rfl, hrem, rfl⟩ | ⟨store, js, keys, rfl, hr, hjob⟩ | ⟨js, records, -, hin, rfl⟩ :=
    step_cases hi.represented hs
  · obtain ⟨news, hgood, hret⟩ := h.perform hi.represented hrem hc
    refine hgood.subset (fun r hr => ?_) fun js k r hr => ?_
    · simp only [List.mem_append] at hr ⊢
      rcases hr with (hr | hr) | hr
      · exact .inl (hret r hr)
      · obtain ⟨js, k, hjob⟩ := InMemoryStore.mem_records.mp hr
        exact List.mem_append.mp (hgood.stored js k r hjob)
      · exact .inr hr
    · exact List.mem_append_left _ (List.mem_append_right _
        (InMemoryStore.mem_records.mpr ⟨js, k, hr⟩))
  · refine h.remove hr.placed (fun js' k r hr' => ?_) fun a ha => List.mem_filter.mp ha
    change store.job? js' k = some r at hr'
    rw [hjob] at hr'
    split at hr'
    case isTrue => cases hr'
    case isFalse => exact hr'
  · obtain ⟨hsub, -⟩ := hi.emitJobs js records
    refine ⟨h.placed, h.stored, h.newest, fun a ha => ?_, fun a ha cur hcur hne => ?_⟩ <;>
      rcases List.mem_append.mp ha with ha | ha
    · exact h.live a ha
    · have hmem := currentRecords_iff.mp (hsub a ha)
      obtain ⟨hjs, cur, hcur, hgen⟩ := currentRecords_spec h.placed (hsub a ha)
      rw [← hjs] at hcur
      exact ⟨cur, hcur, h.newest a (hin a hmem.1) cur hcur hgen⟩
    · exact h.older a ha cur hcur hne
    · obtain ⟨hjs, cur', hcur', hgen⟩ := currentRecords_spec h.placed (hsub a ha)
      rw [← hjs, hcur] at hcur'
      exact absurd (Option.some.inj hcur' ▸ hgen) hne

theorem good_of_reachable {s : State} (h : system.ReachableUnder Renewing s) :
    Good s.store s.written s.shown :=
  h.invariant (I := fun s => Good s.store s.written s.shown) (fun _ h => h ▸ good_empty)
    fun _ _ _ hr hgood hc hs => hgood.step (inv_of_reachable hr.reachable) hc hs

/-- **The delivery of a batch** in this state, whatever its records. -/
structure DeliversInOrder (s : State) : Prop where
  /-- The records shown of a key since it was added have non-decreasing revisions. -/
  ordered : ∀ js records, (s.shown ++ (emitJobs s.store s.emitted js records).1).Pairwise Ordered
  /-- What is delivered belongs to the execution of its key. -/
  current : ∀ js records, ∀ r ∈ (emitJobs s.store s.emitted js records).1,
    r ∈ records ∧ ∃ cur, s.store.job? js r.jobKey = some cur ∧ r.sameExecution cur = true
  /-- A record of the current execution is delivered if no record of its key that arrived as one of
  the current execution, before or with it, has a higher revision. -/
  kept : ∀ js records, ∀ r ∈ currentRecords s.store js records,
    (∀ a ∈ s.shown ++ currentRecords s.store js records, a.jobsetId = js → a.jobKey = r.jobKey →
      a.revision ≤ r.revision) → r ∈ (emitJobs s.store s.emitted js records).1

theorem Inv.deliversInOrder {s : State} (h : Inv s) : DeliversInOrder s where
  ordered js records := (h.emitJobs js records).2.2.1
  current js records r hr := currentRecords_iff.mp ((h.emitJobs js records).1 r hr)
  kept js records r hr hmax := by
    obtain ⟨hsub, -, -, hkept⟩ := h.emitJobs js records
    refine (hkept r hr).resolve_right ?_
    rintro ⟨a, ha, hajs, hak, hlt⟩
    have hle : a.revision ≤ r.revision := by
      refine hmax a ?_ hajs hak
      rcases List.mem_append.mp ha with ha | ha
      · exact List.mem_append_left _ ha
      · exact List.mem_append_right _ (hsub a ha)
    omega

/-- **The newest of an execution is delivered**: a record of the current execution of which no newer
one has arrived.  The batch is one that can reach the main thread in this state. -/
def KeepsNewest (s : State) : Prop :=
  ∀ js records, (∀ a ∈ records, a ∈ s.written) → ∀ r ∈ currentRecords s.store js records,
    (∀ a ∈ s.shown ++ records, a.sameExecution r = true → a.revision ≤ r.revision) →
    r ∈ (emitJobs s.store s.emitted js records).1

theorem Inv.keepsNewest {s : State} (h : Inv s) (hgood : Good s.store s.written s.shown) :
    KeepsNewest s := by
  intro js records hin r hr hmax
  obtain ⟨hsub, -, -, hkept⟩ := h.emitJobs js records
  refine (hkept r hr).resolve_right ?_
  rintro ⟨a, ha, hajs, hak, hlt⟩
  obtain ⟨hrjs, cur, hcur, hgen⟩ := currentRecords_spec hgood.placed hr
  by_cases hagen : a.generation = cur.generation
  · have ha' : a ∈ s.shown ++ records := by
      rcases List.mem_append.mp ha with ha | ha
      · exact List.mem_append_left _ ha
      · exact List.mem_append_right _ (currentRecords_iff.mp (hsub a ha)).1
    have hle := hmax a ha' (JobRecord.sameExecution_iff.mpr
      ⟨hajs.trans hrjs.symm, hak, hagen.trans hgen.symm⟩)
    omega
  · -- an earlier execution lies below the current one
    rcases List.mem_append.mp ha with ha | ha
    · have hold := hgood.older a ha cur (by rw [hajs, hak]; exact hcur) hagen r
        (hin r (currentRecords_iff.mp hr).1) (hrjs.trans hajs.symm) hak.symm hgen
      omega
    · obtain ⟨-, cur', hcur', hgen'⟩ := currentRecords_spec hgood.placed (hsub a ha)
      rw [hak, hcur] at hcur'
      exact hagen (Option.some.inj hcur' ▸ hgen')

/-- **Revisions order the delivery**: every write to an existing record raises its revision by one,
whatever snapshot the caller has; and whatever was written and whatever batches reach the main
thread, in whatever order, it delivers records of the current execution only, never backwards, and
never drops the newest of those that arrive as current.  In a run in which no write brings an old
execution back this is the newest of its execution. -/
theorem revisions_orderDelivery (ops : List Op) {s : State} (h : system.Reachable s) :
    (InMemoryStore.afterOps ops).RaisesByOne ∧ DeliversInOrder s ∧
      (system.ReachableUnder Renewing s → KeepsNewest s) :=
  ⟨(InMemoryStore.represented_afterOps ops).placed.raisesByOne,
    (inv_of_reachable h).deliversInOrder,
    fun hr => (inv_of_reachable h).keepsNewest (good_of_reachable hr)⟩

/-- The record of a job as it was created, as it was reset and as it was submitted. -/
def lateCreated : JobRecord :=
  { jobsetId := "js", jobKey := "a", generation := 0, updatedAt := some 0 }

def lateReset : JobRecord :=
  { lateCreated with state := .submitting, generation := 1, revision := 1, updatedAt := some 1 }

def lateSubmitted : JobRecord :=
  { lateReset with state := .pend, jobId := some 7, revision := 2, updatedAt := some 2 }

/-- The caller has kept the record as it was reset. -/
def lateReplaced : JobRecord := { lateReset with revision := 3, updatedAt := some 3 }

/-- The records reach the main thread after the last of the writes, the newest one first. -/
def lateRecords : List Act :=
  [.write (.insertJobset 0 { jobsetId := "js", intendedCount := 1 }),
    .write (.addJob 0 { jobsetId := "js", jobKey := "a", generation := 0 }),
    .write (.transition 1 "js" "a" (some .submitting) none [.generation 1]),
    .write (.transition 2 "js" "a" (some .pend) none [.jobId (some 7)]),
    .write (.updateJob 3 lateReset),
    .emit "js" [lateReplaced], .emit "js" [lateSubmitted, lateReset, lateCreated]]

/-- Only the newest is shown. -/
theorem revisions_orderDelivery_lateRecords :
    ∃ s, system.ReachableUnder Renewing s ∧ s.shown = [lateReplaced] ∧
      (InMemoryStore.afterOps []).RaisesByOne ∧ DeliversInOrder s ∧ KeepsNewest s := by
  have hshown : (system.runUnder (fun s a => Renewing s a) {} lateRecords).map State.shown
      = some [lateReplaced] := by decide +kernel
  obtain ⟨s, hs, hout⟩ := Option.map_eq_some_iff.mp hshown
  have hr := System.reachableUnder_of_runUnder (fun _ _ => of_decide_eq_true) (.init rfl) hs
  obtain ⟨hraises, hdelivers, hnewest⟩ := revisions_orderDelivery [] hr.reachable
  exact ⟨s, hr, hout, hraises, hdelivers, hnewest hr⟩

end Delivery

end Lsfmgr
