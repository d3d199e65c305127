import Mathlib
import Lsfmgr.Submit.Notes

/-!
# Submit/Published — every transition of a submission is published once, in order, before the end

For each key, what has been published, what is buffered and what its thread still carries is, in
this order, what was written (`Announced.ordered`): the thread that writes to a key holds the key's
unit, so nothing else carries a record of that key.
-/

namespace Lsfmgr.Submit

open Machinery

/-! ## The code of one cycle's threads -/

/-- The code of the threads of the cycle `c`. -/
def codesOf (c : ℕ) (ts : List Thread) : List (List Instr) :=
  ts.filterMap fun t => if t.cycle = c then some t.code else none

theorem mem_codesOf {c : ℕ} {ts : List Thread} {code : List Instr} :
    code ∈ codesOf c ts ↔ (⟨c, code⟩ : Thread) ∈ ts := by
  simp only [codesOf, List.mem_filterMap, Option.ite_none_right_eq_some, Option.some.injEq]
  constructor
  · rintro ⟨⟨c', code'⟩, hmem, rfl, rfl⟩
    exact hmem
  · exact fun h => ⟨_, h, rfl, rfl⟩

theorem codesOf_spawned (c : ℕ) (codes : List (List Instr)) :
    codesOf c (codes.map (Thread.mk c)) = codes := by simp [codesOf, List.filterMap_map]

theorem codesOf_other {c c' : ℕ} (h : c' ≠ c) (codes : List (List Instr)) :
    codesOf c' (codes.map (Thread.mk c)) = [] := by
  simp [codesOf, List.filterMap_map, Ne.symm h]

theorem codesOf_append (c : ℕ) (ts ts' : List Thread) :
    codesOf c (ts ++ ts') = codesOf c ts ++ codesOf c ts' := List.filterMap_append

theorem codesOf_of_not_known {c : ℕ} {ts : List Thread} (h : ∀ t ∈ ts, t.cycle ≠ c) :
    codesOf c ts = [] := List.filterMap_eq_nil_iff.mpr fun t ht => if_neg (h t ht)

theorem held_eq (all : List Key) (c : ℕ) (ts : List Thread) :
    held all c ts = ((codesOf c ts).map (codeUnits all)).sum := by
  induction ts with
  | nil => rfl
  | cons t ts ih =>
    rw [held, List.map_cons, List.sum_cons, ← held, ih, codesOf, codesOf, List.filterMap_cons]
    split <;> simp_all

/-- The codes of the cycle whose thread runs, before and after the instruction. -/
theorem codesOf_replaceAt {c : ℕ} {ts : List Thread} {i : ℕ} {code : List Instr}
    (hi : ts[i]? = some ⟨c, code⟩) : ∃ pre post, codesOf c ts = pre ++ code :: post ∧
      ∀ codes, codesOf c (replaceAt ts i (codes.map (Thread.mk c))) = pre ++ codes ++ post := by
  refine ⟨codesOf c (ts.take i), codesOf c (ts.drop (i + 1)), ?_, fun codes => ?_⟩
  · conv_lhs => rw [eq_take_cons_drop hi, codesOf_append]
    simp [codesOf]
  · rw [replaceAt, codesOf_append, codesOf_append, codesOf_spawned]

theorem codesOf_replaceAt_of_ne {c c' : ℕ} {ts : List Thread} {i : ℕ} {code : List Instr}
    (hi : ts[i]? = some ⟨c, code⟩) (hne : c' ≠ c) (codes : List (List Instr)) :
    codesOf c' (replaceAt ts i (codes.map (Thread.mk c))) = codesOf c' ts := by
  conv_rhs => rw [eq_take_cons_drop hi, codesOf_append]
  rw [replaceAt, codesOf_append, codesOf_append, codesOf_other hne]
  simp [codesOf, Ne.symm hne]

/-! ## The records of one cycle -/

/-- Every batch of a list of signals, one after the other. -/
def published (sigs : List Signal) : List JobRecord := (sigs.filterMap Signal.batch?).flatten

def progressOf (sigs : List Signal) : List (ℕ × ℕ) := sigs.filterMap Signal.progress?

@[simp] theorem published_append (a b : List Signal) :
    published (a ++ b) = published a ++ published b := by simp [published]

@[simp] theorem progressOf_append (a b : List Signal) :
    progressOf (a ++ b) = progressOf a ++ progressOf b := List.filterMap_append

/-- The cycle is finished after a last progress, and what its observers are shown ends there. -/
def Closed (total : ℕ) (sigs : List Signal) : Prop :=
  ∃ before rep after, sigs = before ++ Signal.finished rep :: after ∧
    (progressOf before).getLast? = some (total, total) ∧
    after.filterMap Signal.batch? = [] ∧ progressOf after = []

/-- A cycle that has not announced its reset: one thread, which writes to no record that is
published. -/
structure Unannounced (cyc : Cycle) (codes : List (List Instr)) (sigs : List Signal)
    (written : List JobRecord) : Prop where
  written : written = []
  buffer : cyc.changedBuffer = []
  pending : cyc.pendingRetries.entries = []
  single : (codes.filter fun code => !code.isEmpty).length ≤ 1
  inert : ∀ code ∈ codes, ∀ y ∈ code, (y.isBook = true ∨ y.isPrelude = true) ∧ y.notes = []
  ahead : ∀ code ∈ codes, ∀ y ∈ code, y.isAhead = true → sigs.filterMap Signal.batch? = []
  announce : ∀ code ∈ codes, ∀ l, Instr.announce l ∈ code →
    code = [.announce l] ∧ cyc.finished = false

/-- A cycle that has announced the reset of the records `l`. -/
structure Announced (l : List JobRecord) (cyc : Cycle) (codes : List (List Instr))
    (sigs : List Signal) (written : List JobRecord) : Prop where
  launched : ∀ code ∈ codes, ∀ y ∈ code, y.isPrelude = false
  /-- What is published of a key, then what is buffered, then what is carried. -/
  ordered : ∀ k, recordsAt k (l ++ written)
    = recordsAt k (published sigs ++ cyc.changedBuffer ++ codes.flatMap codeNotes)
  flushed : cyc.finished = true → cyc.changedBuffer = [] ∧ Closed cyc.total sigs

/-- What has become of the records of one cycle. -/
structure Publishing (cyc : Cycle) (codes : List (List Instr)) (sigs : List Signal)
    (written : List JobRecord) : Prop where
  backed : ∀ code ∈ codes, BackedCode cyc.keys code
  monotone : (progressOf sigs).Pairwise fun p q => p.1 ≤ q.1
  bounded : ∀ p ∈ progressOf sigs, p.1 ≤ cyc.done ∧ p.2 = cyc.total
  phase : (sigs.filterMap Signal.reset? = [] ∧ Unannounced cyc codes sigs written) ∨
    ∃ l, sigs.filterMap Signal.reset? = [l] ∧ Announced l cyc codes sigs written

/-- The other threads of a cycle carry no record of a key whose unit this one holds. -/
theorem recordsAt_others {all : List Key} {pre post : List (List Instr)} {code : List Instr}
    {k : Key} (hnd : ((pre ++ code :: post).map (codeUnits all)).sum.Nodup)
    (hb : ∀ code' ∈ pre ++ code :: post, BackedCode all code') (hk : k ∈ codeUnits all code) :
    recordsAt k (pre.flatMap codeNotes) = [] ∧ recordsAt k (post.flatMap codeNotes) = [] := by
  have hother : ∀ code' ∈ pre ++ post, k ∉ codeUnits all code' := by
    intro code' hmem hk'
    have hsum : ((pre ++ code :: post).map (codeUnits all)).sum
        = codeUnits all code + ((pre ++ post).map (codeUnits all)).sum := by
      simp only [List.map_append, List.map_cons, List.sum_append, List.sum_cons]
      abel
    rw [hsum] at hnd
    exact Multiset.disjoint_left.mp (Multiset.nodup_add.mp hnd).2.2 hk
      (Multiset.mem_of_le (le_sum_of_mem _ hmem) hk')
  refine ⟨recordsAt_eq_nil.mpr fun r hr heq => ?_, recordsAt_eq_nil.mpr fun r hr heq => ?_⟩
  · obtain ⟨code', hmem, hr⟩ := List.mem_flatMap.mp hr
    exact hother code' (by simp [hmem]) (heq ▸ (hb code' (by simp [hmem])).unit hr)
  · obtain ⟨code', hmem, hr⟩ := List.mem_flatMap.mp hr
    exact hother code' (by simp [hmem]) (heq ▸ (hb code' (by simp [hmem])).unit hr)

section Step

variable {P : Params} {o : Oracle} {c : ℕ} {cyc : Cycle} {w : Shared} {x : Instr} {e : Effect}
  {rest : List Instr} {pre post : List (List Instr)} {sigs : List Signal}
  {written : List JobRecord}

/-- What an instruction wrote belongs to a unit it holds. -/
theorem returned_units (hp : e.store.Placed) (all : List Key) {r : JobRecord}
    (hr : r ∈ x.returned P w.store e.store) : r.jobKey ∈ x.units all ∧ x.notes = [] := by
  rw [Instr.returned] at hr
  split at hr
  case h_1 => cases hr
  case h_2 k hk =>
    split at hr
    case isTrue => cases hr
    case isFalse =>
      have hkey := (hp.own _ _ _ (Option.mem_toList.mp hr)).2
      rw [hkey]
      cases x
      case toSubmitting k' a =>
        simp only [Instr.publishedKey?, Option.ite_none_left_eq_some] at hk
        obtain rfl := Option.some.inj hk.2
        exact ⟨Multiset.mem_singleton_self _, rfl⟩
      case succeeded | toRetryWait | toSubmitFailed | cancelled | crashed | giveUpWrite =>
        obtain rfl := Option.some.inj hk
        exact ⟨Multiset.mem_singleton_self _, rfl⟩
      all_goals cases hk

/-- **An instruction of a launched cycle keeps the order of its records.** -/
theorem Announced.ordered_exec {l : List JobRecord}
    (h : Announced l cyc (pre ++ (x :: rest) :: post) sigs written)
    (hp : e.store.Placed) (pub : Publishes P cyc w x e)
    (hb : ∀ code ∈ pre ++ (x :: rest) :: post, BackedCode cyc.keys code)
    (hnd : ((pre ++ (x :: rest) :: post).map (codeUnits cyc.keys)).sum.Nodup) (k : Key) :
    recordsAt k (l ++ (written ++ x.returned P w.store e.store))
      = recordsAt k (published (sigs ++ e.signals) ++ e.cyc.changedBuffer
        ++ (pre ++ ((e.code ++ rest) :: e.spawned) ++ post).flatMap codeNotes) := by
  have hown : x.ownBatch = [] := by
    have := h.launched (x :: rest) (by simp) x List.mem_cons_self
    cases x <;> first | rfl | cases this
  have hspawned : e.spawned.flatMap codeNotes = [] :=
    List.flatMap_eq_nil_iff.mpr fun code hc => codeNotes_eq_nil (pub.spawned code hc)
  have hold := h.ordered k
  have hbuf : recordsAt k (published e.signals) ++ recordsAt k e.cyc.changedBuffer
      = recordsAt k cyc.changedBuffer ++ recordsAt k x.notes := by
    rw [← recordsAt_append, ← recordsAt_append]
    simpa [hown, published] using congrArg (recordsAt k) pub.buffer
  simp only [List.flatMap_append, List.flatMap_cons, codeNotes_cons,
    codeNotes_append, published_append, recordsAt_append, hspawned, pub.notes, List.append_nil]
    at hold ⊢
  have hunit : k ∈ codeUnits cyc.keys (x :: rest) →
      recordsAt k (pre.flatMap codeNotes) = [] ∧ recordsAt k (post.flatMap codeNotes) = [] :=
    recordsAt_others hnd hb
  rw [codeUnits_cons, Multiset.mem_add] at hunit
  by_cases hret : recordsAt k (x.returned P w.store e.store) = []
  case neg =>
    -- the record just written: nothing else of this key is on its way
    obtain ⟨r, hr, hrk⟩ : ∃ r ∈ x.returned P w.store e.store, r.jobKey = k := by
      simpa [recordsAt_eq_nil] using hret
    obtain ⟨hk, hn⟩ := returned_units (x := x) hp cyc.keys hr
    rw [hrk] at hk
    obtain ⟨hpre, hpost⟩ := hunit (.inl hk)
    have hrest : recordsAt k (codeNotes rest) = [] := by
      refine recordsAt_eq_nil.mpr fun r' hr' heq => ?_
      have hcode : (codeUnits cyc.keys (x :: rest)).Nodup :=
        Multiset.nodup_of_le (le_sum_of_mem _ (by simp)) hnd
      rw [codeUnits_cons] at hcode
      refine Multiset.disjoint_left.mp (Multiset.nodup_add.mp hcode).2.2 hk (heq ▸ ?_)
      exact (hb (x :: rest) (by simp)).2.unit hr'
    simp only [hn, hpre, hpost, hrest, recordsAt_nil, List.append_nil, List.nil_append]
      at hold hbuf ⊢
    rw [← List.append_assoc, hold, ← hbuf]
    simp
  case pos =>
    rw [hret, List.append_nil, List.nil_append, hold]
    by_cases hn : recordsAt k x.notes = []
    · simp only [hn, List.append_nil, List.nil_append] at hbuf ⊢
      simp [← hbuf]
    · -- a record goes into the buffer: nothing of this key is ahead of it
      obtain ⟨r, hr, hrk⟩ : ∃ r ∈ x.notes, r.jobKey = k := by simpa [recordsAt_eq_nil] using hn
      have hk : k ∈ codeUnits cyc.keys (x :: rest) := by
        rw [← hrk]
        exact (hb (x :: rest) (by simp)).unit (by simp [hr])
      obtain ⟨hpre, hpost⟩ := hunit (Multiset.mem_add.mp (codeUnits_cons cyc.keys x rest ▸ hk))
      simp only [hpre, hpost, List.append_nil, List.nil_append]
      rw [List.append_assoc (recordsAt k (published sigs))
        (recordsAt k (published e.signals)), hbuf]
      simp

/-- A thread that has not announced the reset goes on alone. -/
theorem Unannounced.others (h : Unannounced cyc (pre ++ (x :: rest) :: post) sigs written) :
    ∀ code ∈ pre ++ post, code = [] := by
  have hsingle := h.single
  simp only [List.filter_append, List.filter_cons, List.isEmpty_cons, Bool.not_false, if_true,
    List.length_append, List.length_cons] at hsingle
  have hnil : (pre ++ post).filter (fun code => !code.isEmpty) = [] := by
    rw [List.filter_append, ← List.length_eq_zero_iff, List.length_append]
    omega
  intro code hcode
  have := List.filter_eq_nil_iff.mp hnil code hcode
  simpa using this

/-- What an instruction does before the announcement. -/
structure Inert (cyc : Cycle) (x : Instr) (e : Effect) : Prop where
  spawned : e.spawned = []
  pending : e.cyc.pendingRetries = cyc.pendingRetries
  buffer : e.cyc.changedBuffer = []
  code : ∀ y ∈ e.code, (y.isBook = true ∨ y.isPrelude = true) ∧
    (y.isAhead = true → x.isAhead = true)
  announce : ∀ l, Instr.announce l ∈ e.code → e.code = [.announce l] ∧ e.cyc.finished = false
  batch : x.isBook = true ∨ x.isAhead = true → e.signals.filterMap Signal.batch? = []

theorem inert_of_book (hx : x.isBook = true) (hn : x.notes = []) (hbuf : cyc.changedBuffer = [])
    (pub : Publishes P cyc w x e) (h : exec P o c cyc w x = some e) : Inert cyc x e := by
  obtain ⟨hcode, hspawned, hpending⟩ := exec_book hx h
  have hown : x.ownBatch = [] := by cases x <;> first | rfl | cases hx
  have hall := pub.buffer
  rw [hown, hbuf, hn, List.append_nil, List.append_nil, List.append_eq_nil_iff] at hall
  refine ⟨hspawned, hpending, hall.2, fun y hy => ⟨.inl (hcode y hy), fun ha => ?_⟩,
    fun l hl => ?_, fun _ => List.eq_nil_iff_forall_not_mem.mpr fun b hb => ?_⟩
  · have hl := Instr.isLaunch_of_isPrelude (Instr.isPrelude_of_isAhead ha)
    rw [Instr.not_isLaunch_of_isBook (hcode y hy)] at hl
    cases hl
  · cases hcode _ hl
  · exact pub.nonempty b hb (List.flatten_eq_nil_iff.mp hall.1 b hb)

theorem inert_of_prelude (hx : x.isPrelude = true) (hna : ∀ l, x ≠ .announce l)
    (hbuf : cyc.changedBuffer = []) (h : exec P o c cyc w x = some e) : Inert cyc x e := by
  obtain ⟨hcode, hbatch, hsame⟩ := exec_prelude hx hna h
  obtain ⟨-, hspawned, hpending⟩ := exec_launch (Instr.isLaunch_of_isPrelude hx) h
  refine ⟨hspawned, hpending, hsame.trans hbuf, fun y hy => ⟨(hcode y hy).1, (hcode y hy).2.1⟩,
    fun l hl => (hcode _ hl).2.2 l rfl, fun hxa => ?_⟩
  rcases hxa with hb | ha
  · have hl := Instr.isLaunch_of_isPrelude hx
    rw [Instr.not_isLaunch_of_isBook hb] at hl
    cases hl
  · exact hbatch ha

/-- **An instruction before the announcement leaves everything unpublished.** -/
theorem Unannounced.exec (h : Unannounced cyc (pre ++ (x :: rest) :: post) sigs written)
    (hna : ∀ l, x ≠ .announce l) (hshape : Launched (x :: rest) ∨ LaunchShaped (x :: rest))
    (pub : Publishes P cyc w x e) (hexec : Submit.exec P o c cyc w x = some e) :
    Unannounced e.cyc (pre ++ ((e.code ++ rest) :: e.spawned) ++ post) (sigs ++ e.signals)
      (written ++ x.returned P w.store e.store) := by
  have hmem : x :: rest ∈ pre ++ (x :: rest) :: post := by simp
  obtain ⟨hkind, hnotes⟩ := h.inert _ hmem x List.mem_cons_self
  have I : Inert cyc x e := by
    rcases hkind with hx | hx
    · exact inert_of_book hx hnotes h.buffer pub hexec
    · exact inert_of_prelude hx hna h.buffer hexec
  have hret : x.returned P w.store e.store = [] := by
    rw [Instr.returned]
    rcases hkind with hx | hx
    · cases x <;> first | rfl | cases hx
    · cases x <;> first | rfl | cases hx
  have hnew : ∀ y ∈ e.code, y.notes = [] := List.flatMap_eq_nil_iff.mp (pub.notes.trans hret)
  -- a prelude is the last instruction of its thread
  have hbook : ∀ y ∈ rest, x.isBook = true := fun y hy => by
    refine hkind.resolve_right fun hx => ?_
    have hl := Instr.isLaunch_of_isPrelude hx
    have hs := hshape.resolve_left fun hlaunched => by
      rw [hlaunched x List.mem_cons_self] at hl
      cases hl
    rw [hs.rest_eq_nil hl] at hy
    cases hy
  have hothers : ∀ code ∈ pre ++ ((e.code ++ rest) :: e.spawned) ++ post, ∀ y ∈ code,
      code = e.code ++ rest := by
    intro code hc y hy
    rw [I.spawned] at hc
    rcases List.mem_append.mp hc with hc | hc
    · rcases List.mem_append.mp hc with hc | hc
      · rw [h.others code (List.mem_append_left _ hc)] at hy
        cases hy
      · exact List.mem_singleton.mp hc
    · rw [h.others code (List.mem_append_right _ hc)] at hy
      cases hy
  refine ⟨by rw [h.written, hret]; rfl, I.buffer,
    by rw [I.pending]; exact h.pending, ?_, ?_, ?_, ?_⟩
  · have hnil : ∀ codes, codes ⊆ pre ++ post →
        codes.filter (fun code : List Instr => !code.isEmpty) = [] := fun codes hsub =>
      List.filter_eq_nil_iff.mpr fun code hc => by simp [h.others code (hsub hc)]
    rw [I.spawned, List.filter_append, List.filter_append, hnil pre (by simp),
      hnil post (by simp), List.filter_cons]
    split <;> simp
  · intro code hc y hy
    rw [hothers code hc y hy] at hy
    rcases List.mem_append.mp hy with hy | hy
    · exact ⟨(I.code y hy).1, hnew y hy⟩
    · exact h.inert _ hmem y (List.mem_cons_of_mem _ hy)
  · intro code hc y hy ha
    rw [hothers code hc y hy] at hy
    rw [List.filterMap_append]
    rcases List.mem_append.mp hy with hy | hy
    · have hxa := (I.code y hy).2 ha
      rw [I.batch (.inr hxa), h.ahead _ hmem x List.mem_cons_self hxa]
      rfl
    · rw [I.batch (.inl (hbook y hy)), h.ahead _ hmem y (List.mem_cons_of_mem _ hy) ha]
      rfl
  · intro code hc l hl
    have heq := hothers code hc _ hl
    rw [heq] at hl ⊢
    rcases List.mem_append.mp hl with hl | hl
    · obtain ⟨hcode, hf⟩ := I.announce l hl
      have hrest : rest = [] := List.eq_nil_iff_forall_not_mem.mpr fun y hy => by
        cases (exec_book (hbook y hy) hexec).1 _ hl
      rw [hcode, hrest]
      exact ⟨rfl, hf⟩
    · obtain ⟨hsame, -⟩ := h.announce _ hmem l (List.mem_cons_of_mem _ hl)
      rw [(List.cons.inj hsame).2] at hl
      cases hl

/-- The announcement: what was reset is published, and nothing else yet. -/
theorem Unannounced.announce_exec {l : List JobRecord}
    (h : Unannounced cyc (pre ++ (.announce l :: rest) :: post) sigs written)
    (hexec : Submit.exec P o c cyc w (.announce l) = some e) :
    Announced l e.cyc (pre ++ ((e.code ++ rest) :: e.spawned) ++ post) (sigs ++ e.signals)
        (written ++ (Instr.announce l).returned P w.store e.store) ∧
      (e.signals.filterMap Signal.reset? = [l]) := by
  have hmem : .announce l :: rest ∈ pre ++ (.announce l :: rest) :: post := by simp
  obtain ⟨heq, hf⟩ := h.announce _ hmem l List.mem_cons_self
  obtain rfl : rest = [] := (List.cons.inj heq).2
  obtain rfl := Option.some.inj hexec
  have hpub : published (Submit.announce cyc w l).signals = l := by
    have := (batches_batch l).1
    simpa [Submit.announce, published, List.filterMap_cons, Signal.batch?] using this
  have hold : published sigs = [] := by
    rw [published, h.ahead _ hmem _ List.mem_cons_self rfl]
    rfl
  have hother : ∀ codes, codes ⊆ pre ++ post → codes.flatMap codeNotes = [] := fun codes hsub =>
    List.flatMap_eq_nil_iff.mpr fun code hc => by rw [h.others code (hsub hc), codeNotes_nil]
  have hcode : (Submit.announce cyc w l).code = [.finishIfDone true] ∨
      (Submit.announce cyc w l).code = [.fanOut l] := by
    rw [Submit.announce]
    split <;> simp
  refine ⟨⟨?_, fun k => ?_, fun hf' => ?_⟩, ?_⟩
  · intro code hc y hy
    rcases List.mem_append.mp hc with hc | hc
    · rcases List.mem_append.mp hc with hc | hc
      · rw [h.others code (List.mem_append_left _ hc)] at hy
        cases hy
      · obtain rfl := List.mem_singleton.mp hc
        rcases hcode with hcode | hcode <;>
        · rw [hcode] at hy
          obtain rfl := List.mem_singleton.mp hy
          rfl
    · rw [h.others code (List.mem_append_right _ hc)] at hy
      cases hy
  · have hnotes : codeNotes (Submit.announce cyc w l).code = [] := by
      rcases hcode with hcode | hcode <;> rw [hcode] <;> rfl
    have hbuf : (Submit.announce cyc w l).cyc.changedBuffer = [] := h.buffer
    have hspawned : (Submit.announce cyc w l).spawned = [] := rfl
    have hret : (Instr.announce l).returned P w.store (Submit.announce cyc w l).store = [] := rfl
    simp [hpub, hold, h.written, hbuf, hspawned, hret, hother pre, hother post, hnotes]
  · have : (Submit.announce cyc w l).cyc.finished = cyc.finished := rfl
    rw [this, hf] at hf'
    cases hf'
  · have hb : (batch l).filterMap Signal.reset? = [] := by rw [batch]; split <;> rfl
    simpa [Submit.announce, List.filterMap_cons, Signal.reset?] using hb

/-- **A launched cycle ends once, after its last progress and its last batch.** -/
theorem Announced.flushed_exec {l : List JobRecord}
    (h : Announced l cyc (pre ++ (x :: rest) :: post) sigs written)
    (pub : Publishes P cyc w x e) (hb : BackedCode cyc.keys (x :: rest))
    (hidle : cyc.finished = true → codeUnits cyc.keys (x :: rest) = 0)
    (hle : cyc.done ≤ cyc.total) (hdone : e.cyc.finished = true → e.cyc.done = cyc.total)
    (hexec : Submit.exec P o c cyc w x = some e) (hf' : e.cyc.finished = true) :
    e.cyc.changedBuffer = [] ∧ Closed cyc.total (sigs ++ e.signals) := by
  have hx : x.isPrelude = false := h.launched (x :: rest) (by simp) x List.mem_cons_self
  rcases hf : cyc.finished with _ | _
  case false =>
    obtain ⟨hsame, hbuf, hsig⟩ := exec_finish hx hf hf' hexec
    have htotal : cyc.total ≤ cyc.done := (hdone hf').ge.trans hsame.le
    refine ⟨hbuf, sigs ++ ([.progress cyc.total cyc.total] ++ batch cyc.changedBuffer),
      cyc.report, [], by rw [hsig, if_pos htotal]; simp, ?_, rfl, rfl⟩
    have hprog : progressOf (batch cyc.changedBuffer) = [] := by rw [batch]; split <;> rfl
    rw [progressOf_append, progressOf_append, hprog]
    simp [progressOf, Signal.progress?]
  case true =>
    obtain ⟨hbuf, before, rep, after, hsigs, hlast, hafter, hafterp⟩ := h.flushed hf
    have hn : x.notes = [] := List.eq_nil_iff_forall_not_mem.mpr fun r hr => by
      have := hb.unit (r := r) (by simp [hr])
      simp [hidle hf] at this
    have hown : x.ownBatch = [] := by cases x <;> first | rfl | cases hx
    have hall := pub.buffer
    rw [hown, hbuf, hn, List.append_nil, List.append_nil, List.append_eq_nil_iff] at hall
    have hbatch : e.signals.filterMap Signal.batch? = [] :=
      List.eq_nil_iff_forall_not_mem.mpr fun b hb =>
        pub.nonempty b hb (List.flatten_eq_nil_iff.mp hall.1 b hb)
    have hprog : progressOf e.signals = [] := List.eq_nil_iff_forall_not_mem.mpr fun p hp => by
      have := (exec_progress hle hexec p hp).2
      rw [hf] at this
      cases this
    exact ⟨hall.2, before, rep, after ++ e.signals, by simp [hsigs], hlast,
      by rw [List.filterMap_append, hafter, hbatch]; rfl,
        by rw [progressOf_append, hafterp, hprog]; rfl⟩

/-- **One instruction of the cycle keeps its records in order.** -/
theorem Publishing.exec (h : Publishing cyc (pre ++ (x :: rest) :: post) sigs written)
    (hp : w.store.Placed) (hshape : Launched (x :: rest) ∨ LaunchShaped (x :: rest))
    (hnd : ((pre ++ (x :: rest) :: post).map (codeUnits cyc.keys)).sum.Nodup)
    (hidle : cyc.finished = true → codeUnits cyc.keys (x :: rest) = 0)
    (hle : cyc.done ≤ cyc.total) (hmono : cyc.done ≤ e.cyc.done)
    (hdone : e.cyc.finished = true → e.cyc.done = e.cyc.total)
    (hexec : Submit.exec P o c cyc w x = some e) :
    Publishing e.cyc (pre ++ ((e.code ++ rest) :: e.spawned) ++ post) (sigs ++ e.signals)
      (written ++ x.returned P w.store e.store) := by
  have hmem : x :: rest ∈ pre ++ (x :: rest) :: post := by simp
  have hb := h.backed _ hmem
  have hcount : ∀ ks out ch, x = .count ks out ch → ∀ r ∈ ch, r.jobKey ∈ ks := by
    rintro ks out ch rfl
    exact hb.1
  have pub := exec_publishes hp hcount hexec
  have hkeys : e.cyc.keys = cyc.keys := congrArg (List.map Prod.fst) (exec_keyed hexec)
  have htotal : e.cyc.total = cyc.total := congrArg List.length (exec_keyed hexec)
  refine ⟨fun code hc => ?_, ?_, fun p hpr => ?_, ?_⟩
  · rw [hkeys]
    rcases List.mem_append.mp hc with hc | hc
    · rcases List.mem_append.mp hc with hc | hc
      · exact h.backed code (by simp [hc])
      · rcases List.mem_cons.mp hc with rfl | hc
        · exact hb.2.append pub.backed
        · exact backedCode_of_notes (pub.spawned code hc)
    · exact h.backed code (by simp [hc])
  · rw [progressOf_append, List.pairwise_append]
    refine ⟨h.monotone, List.pairwise_of_forall_mem_list fun p hp q hq => ?_, fun p hp q hq => ?_⟩
    · rw [(exec_progress hle hexec p hp).1, (exec_progress hle hexec q hq).1]
    · rw [(exec_progress hle hexec q hq).1]
      exact (h.bounded p hp).1
  · rw [htotal]
    rcases List.mem_append.mp (progressOf_append sigs e.signals ▸ hpr) with hpr | hpr
    · exact ⟨(h.bounded p hpr).1.trans hmono, (h.bounded p hpr).2⟩
    · rw [(exec_progress hle hexec p hpr).1]
      exact ⟨hmono, rfl⟩
  · rw [List.filterMap_append]
    rcases h.phase with ⟨hreset, U⟩ | ⟨l, hreset, A⟩
    · by_cases hx : ∃ l, x = .announce l
      · obtain ⟨l, rfl⟩ := hx
        obtain ⟨hA, hr⟩ := U.announce_exec hexec
        exact .inr ⟨l, by rw [hreset, hr]; rfl, hA⟩
      · have hna : ∀ l, x ≠ .announce l := fun l hl => hx ⟨l, hl⟩
        exact .inl ⟨by rw [hreset, exec_resets hna hexec]; rfl, U.exec hna hshape pub hexec⟩
    · have hx : x.isPrelude = false := A.launched _ hmem x List.mem_cons_self
      have hna : ∀ l, x ≠ .announce l := by
        rintro l rfl
        cases hx
      refine .inr ⟨l, by rw [hreset, exec_resets hna hexec]; rfl, ⟨?_, ?_, fun hf' => ?_⟩⟩
      · have hcodes := exec_not_prelude hx hexec
        intro code hc y hy
        rcases List.mem_append.mp hc with hc | hc
        · rcases List.mem_append.mp hc with hc | hc
          · exact A.launched code (by simp [hc]) y hy
          · rcases List.mem_cons.mp hc with rfl | hc
            · rcases List.mem_append.mp hy with hy | hy
              · exact hcodes _ List.mem_cons_self y hy
              · exact A.launched _ hmem y (List.mem_cons_of_mem _ hy)
            · exact hcodes code (List.mem_cons_of_mem _ hc) y hy
        · exact A.launched code (by simp [hc]) y hy
      · exact A.ordered_exec (exec_placed hp hexec) pub h.backed hnd
      · rw [htotal] at hdone ⊢
        exact A.flushed_exec pub hb hidle hle hdone hexec hf'

end Step

/-! ## The other kinds of steps -/

/-- Changes of a cycle that its records do not see. -/
theorem Publishing.congr {cyc cyc' : Cycle} {codes : List (List Instr)} {sigs : List Signal}
    {written : List JobRecord} (h : Publishing cyc codes sigs written)
    (hkeyed : cyc'.keyed = cyc.keyed) (hdone : cyc'.done = cyc.done)
    (hbuf : cyc'.changedBuffer = cyc.changedBuffer) (hfin : cyc'.finished = cyc.finished)
    (hpend : cyc.pendingRetries.entries = [] → cyc'.pendingRetries.entries = []) :
    Publishing cyc' codes sigs written := by
  have hkeys : cyc'.keys = cyc.keys := congrArg (List.map Prod.fst) hkeyed
  have htotal : cyc'.total = cyc.total := congrArg List.length hkeyed
  refine ⟨by rw [hkeys]; exact h.backed, h.monotone, by rw [hdone, htotal]; exact h.bounded, ?_⟩
  rcases h.phase with ⟨hreset, U⟩ | ⟨l, hreset, A⟩
  · exact .inl ⟨hreset, U.written, hbuf.trans U.buffer, hpend U.pending, U.single, U.inert, U.ahead,
      by rw [hfin]; exact U.announce⟩
  · exact .inr ⟨l, hreset, A.launched, by rw [hbuf]; exact A.ordered,
      by rw [hfin, hbuf, htotal]; exact A.flushed⟩

theorem Publishing.cancel {cyc : Cycle} {codes : List (List Instr)} {sigs : List Signal}
    {written : List JobRecord} (h : Publishing cyc codes sigs written) (scope : Scope) :
    Publishing (cyc.cancel scope) codes sigs written := by
  cases scope with
  | none => exact h.congr rfl rfl rfl rfl id
  | some ks => exact h.congr rfl rfl rfl rfl id

/-- Aborting retries starts a thread that carries nothing. -/
theorem Publishing.abort {cyc : Cycle} {codes : List (List Instr)} {sigs : List Signal}
    {written : List JobRecord} (h : Publishing cyc codes sigs written) (how : Settlement)
    (ks : List Key) (reason : String) :
    Publishing (cyc.popRetries how ks).2
      (codes ++ [(cyc.popRetries how ks).1.map fun k => .giveUp k reason]) sigs written := by
  obtain ⟨hkeys, -, pend, settled, heq⟩ := Cycle.popRetries_spec how ks cyc
  have hnone : cyc.pendingRetries.entries = [] → (cyc.popRetries how ks).1 = [] ∧
      (cyc.popRetries how ks).2.pendingRetries.entries = [] := fun hp => by
    simpa [Cycle.pendingKeys, hp] using hkeys.symm
  have h' : Publishing (cyc.popRetries how ks).2 codes sigs written := by
    refine h.congr ?_ ?_ ?_ ?_ fun hp => (hnone hp).2 <;> rw [heq]
  have hgive : ∀ y ∈ (cyc.popRetries how ks).1.map fun k => Instr.giveUp k reason,
      y.notes = [] ∧ y.isPrelude = false := by
    intro y hy
    obtain ⟨k, -, rfl⟩ := List.mem_map.mp hy
    exact ⟨rfl, rfl⟩
  refine ⟨fun code hc => ?_, h'.monotone, h'.bounded, ?_⟩
  · rcases List.mem_append.mp hc with hc | hc
    · exact h'.backed code hc
    · obtain rfl := List.mem_singleton.mp hc
      exact backedCode_of_notes fun y hy => (hgive y hy).1
  · rcases h.phase, h'.phase with ⟨⟨hreset, U⟩ | ⟨l, hreset, A⟩, ⟨hreset', U'⟩ | ⟨l', hreset', A'⟩⟩
    · left
      rw [(hnone U.pending).1]
      have hempty : ∀ code ∈ codes ++ [[]], ∀ y ∈ code, code ∈ codes := by
        intro code hc y hy
        rcases List.mem_append.mp hc with hc | hc
        · exact hc
        · obtain rfl := List.mem_singleton.mp hc
          cases hy
      refine ⟨hreset', U'.written, U'.buffer, U'.pending, ?_, fun code hc y hy => ?_,
        fun code hc y hy => ?_, fun code hc l hl => ?_⟩
      · simpa using U'.single
      · exact U'.inert code (hempty code hc y hy) y hy
      · exact U'.ahead code (hempty code hc y hy) y hy
      · exact U'.announce code (hempty code hc _ hl) l hl
    · rw [hreset] at hreset'
      cases hreset'
    · rw [hreset] at hreset'
      cases hreset'
    · refine .inr ⟨l', hreset', fun code hc y hy => ?_, fun k => ?_, A'.flushed⟩
      · rcases List.mem_append.mp hc with hc | hc
        · exact A'.launched code hc y hy
        · obtain rfl := List.mem_singleton.mp hc
          exact (hgive y hy).2
      · rw [A'.ordered k, List.flatMap_append, List.flatMap_singleton,
          codeNotes_eq_nil fun y hy => (hgive y hy).1, List.append_nil]

theorem publishing_new {cyc : Cycle} {preSubmit : Bool}
    (h : ∃ keyed maxRetry slotLimit, cyc = { keyed, maxRetry, slotLimit }) :
    Publishing cyc [[.register preSubmit]] [] [] := by
  obtain ⟨keyed, maxRetry, slotLimit, rfl⟩ := h
  refine ⟨by simp [BackedCode, Instr.Backed], .nil,
    by simp [progressOf], .inl ⟨rfl, rfl, rfl, rfl, ?_, ?_, ?_, ?_⟩⟩
  · simp
  · simp [Instr.isBook, Instr.isPrelude, Instr.isAhead, Instr.notes]
  · simp
  · simp

/-! ## Runs, and what they wrote -/

/-- What the write of a step returned, with the cycle it was made for. -/
def returnedBy (P : Params) (s s' : InMemoryStore) (ts : List Thread) :
    Option ℕ → List (ℕ × JobRecord)
  | some i =>
    match ts[i]? with
    | some ⟨c, x :: _⟩ => (x.returned P s s').map fun r => (c, r)
    | _ => []
  | none => []

/-- A state, and the records that the writes of each cycle have returned so far. -/
structure Audited where
  base : State
  written : List (ℕ × JobRecord) := []

/-- The submission system, with a record of what it wrote; no step reads it. -/
def audited (P : Params) : System Audited Act where
  init s := (system P).init s.base ∧ s.written = []
  step s a := (State.step P s.base a).map fun b =>
    ⟨b, s.written ++ returnedBy P s.base.shared.store b.shared.store s.base.threads a.ran⟩

/-- The records of every cycle are in order. -/
structure Audit (w : Shared) (ts : List Thread) (written : List (ℕ × JobRecord)) : Prop where
  cycles : ∀ c cyc, w.cycles[c]? = some cyc →
    Publishing cyc (codesOf c ts) (ofCycle c w.log) (ofCycle c written)
  known : ∀ en ∈ written, en.1 < w.cycles.length

namespace Audit

variable {P : Params} {w w' : Shared} {ts ts' : List Thread} {ran : Option ℕ}
  {written : List (ℕ × JobRecord)}

theorem thread (A : Audit w ts written) (L : Ledgered w ts) {i : ℕ} {o : Oracle} {t : Thread}
    {x : Instr} {rest : List Instr} {cyc : Cycle} {e : Effect} (hi : ts[i]? = some t)
    (hcode : t.code = x :: rest) (hcyc : w.cycles[t.cycle]? = some cyc)
    (hexec : exec P o t.cycle cyc w x = some e)
    (L' : Ledgered (w.apply t.cycle e)
      (replaceAt ts i (⟨t.cycle, e.code ++ rest⟩ :: e.spawned.map (Thread.mk t.cycle)))) :
    Audit (w.apply t.cycle e)
      (replaceAt ts i (⟨t.cycle, e.code ++ rest⟩ :: e.spawned.map (Thread.mk t.cycle)))
      (written ++ returnedBy P w.store e.store ts (some i)) := by
  obtain ⟨c, code⟩ := t
  obtain rfl : code = x :: rest := hcode
  have hlt : c < w.cycles.length := (List.getElem?_eq_some_iff.mp hcyc).1
  have hmem := List.mem_of_getElem? hi
  have hret : returnedBy P w.store e.store ts (some i)
      = (x.returned P w.store e.store).map fun r => (c, r) := by simp only [returnedBy, hi]
  refine ⟨fun c' cyc' hc' => ?_, fun en hen => ?_⟩
  · simp only [Shared.apply, List.getElem?_set] at hc'
    rw [hret, ofCycle_append]
    split at hc'
    case isTrue heq =>
      subst heq
      obtain rfl : e.cyc = cyc' := by simpa [hlt] using hc'
      have B := L.cycles c cyc hcyc
      have B' := L'.cycles c e.cyc (by simp [Shared.apply, hlt])
      obtain ⟨pre, post, hcodes, hcodes'⟩ := codesOf_replaceAt hi
      have hafter := hcodes' ((e.code ++ rest) :: e.spawned)
      rw [List.map_cons] at hafter
      have hlog : ofCycle c (w.apply c e).log = ofCycle c w.log ++ e.signals := by
        simp [Shared.apply]
      rw [hafter, hlog, ofCycle_own]
      obtain ⟨more, hmore⟩ := exec_counted hexec
      refine Publishing.exec (by rw [← hcodes]; exact A.cycles c cyc hcyc) L.placed (L.shape _ hmem)
        ?_ (fun hf => ?_) B.done_le ?_ B'.counters.finished hexec
      · rw [← hcodes, ← held_eq]
        exact B.held_nodup
      · exact Multiset.le_zero.mp ((B.idle hf).1 ▸ codeUnits_le_held hmem rfl)
      · rw [B.counters.done, B'.counters.done, hmore, List.length_append]
        exact Nat.le_add_right _ _
    case isFalse hne =>
      have hcodes := codesOf_replaceAt_of_ne hi (Ne.symm hne) ((e.code ++ rest) :: e.spawned)
      rw [List.map_cons] at hcodes
      have hlog : ofCycle c' (w.apply c e).log = ofCycle c' w.log := by
        simp [Shared.apply, ofCycle_other (Ne.symm hne)]
      rw [hcodes, hlog, ofCycle_other (Ne.symm hne), List.append_nil]
      exact A.cycles c' cyc' hc'
  · simp only [Shared.apply, List.length_set]
    rcases List.mem_append.mp hen with hen | hen
    · exact A.known en hen
    · rw [hret] at hen
      obtain ⟨r, -, rfl⟩ := List.mem_map.mp hen
      exact hlt

theorem submit (A : Audit w ts written) (L : Ledgered w ts) {cyc : Cycle} {preSubmit : Bool}
    (hcyc : ∃ keyed maxRetry slotLimit, cyc = { keyed, maxRetry, slotLimit }) :
    Audit { w with cycles := w.cycles ++ [cyc], contexts := some w.cycles.length }
      (ts ++ [⟨w.cycles.length, [.register preSubmit]⟩]) written := by
  refine ⟨fun c' cyc' hc' => ?_, fun en hen => by simpa using Nat.lt_succ_of_lt (A.known en hen)⟩
  rcases lt_trichotomy c' w.cycles.length with hlt | rfl | hgt
  · rw [List.getElem?_append_left hlt] at hc'
    have hcodes :
        codesOf c' (ts ++ [⟨w.cycles.length, [.register preSubmit]⟩]) = codesOf c' ts := by
      rw [codesOf_append]
      simp [codesOf, hlt.ne']
    rw [hcodes]
    exact A.cycles c' cyc' hc'
  · obtain rfl : cyc = cyc' := by simpa using hc'
    have hcodes : codesOf w.cycles.length (ts ++ [⟨w.cycles.length, [.register preSubmit]⟩])
        = [[.register preSubmit]] := by
      rw [codesOf_append, codesOf_of_not_known fun t ht => (L.known t ht).ne]
      simp [codesOf]
    rw [hcodes, ofCycle_of_not_logged fun en hen => (L.logged en hen).ne,
      ofCycle_of_not_logged fun en hen => (A.known en hen).ne]
    exact publishing_new hcyc
  · rw [List.getElem?_eq_none (by simpa using hgt)] at hc'
    cases hc'

/-- Only the flags, the retries and the threads of one cycle have changed. -/
theorem setCycle (A : Audit w ts written) {c : ℕ} {cyc cyc' : Cycle} {codes : List (List Instr)}
    (hc : w.cycles[c]? = some cyc)
    (h : Publishing cyc' (codesOf c ts ++ codes) (ofCycle c w.log) (ofCycle c written)) :
    Audit (w.setCycle c cyc') (ts ++ codes.map (Thread.mk c)) written := by
  refine ⟨fun d cyd hd => ?_, by simpa [Shared.setCycle] using A.known⟩
  rw [Shared.cycles_setCycle hc] at hd
  rw [codesOf_append]
  split at hd
  case isTrue heq =>
    subst heq
    obtain rfl := Option.some.inj hd
    rw [codesOf_spawned]
    exact h
  case isFalse hne =>
    rw [codesOf_other hne, List.append_nil]
    exact A.cycles d cyd hd

/-- **Every kind of step keeps the records of every cycle in order.** -/
theorem step (A : Audit w ts written) (L : Ledgered w ts) (h : Stepped P w ts ran w' ts')
    (L' : Ledgered w' ts') : Audit w' ts' (written ++ returnedBy P w.store w'.store ts ran) := by
  cases h with
  | thread hi hcode hcyc hexec => exact A.thread L hi hcode hcyc hexec L'
  | submit hact hnd hcyc => simpa [returnedBy] using A.submit L hcyc
  | @cancel c cyc scope hc =>
    have hpub : Publishing (cyc.cancel scope) (codesOf c ts ++ []) (ofCycle c w.log)
        (ofCycle c written) := by simpa using (A.cycles c cyc hc).cancel scope
    simpa [returnedBy] using A.setCycle hc hpub
  | @abort c cyc scope how reason hc =>
    simpa [returnedBy] using A.setCycle hc ((A.cycles c cyc hc).abort how _ reason)
  | write => exact ⟨by simpa [returnedBy] using A.cycles, by simpa [returnedBy] using A.known⟩
  | flags => exact ⟨by simpa [returnedBy] using A.cycles, by simpa [returnedBy] using A.known⟩

end Audit

theorem audited_base {P : Params} {s : Audited} (h : (audited P).Reachable s) :
    (system P).Reachable s.base := by
  induction h with
  | init h => exact .init h.1
  | step hr hc hs ih =>
    obtain ⟨b, hb, rfl⟩ := Option.map_eq_some_iff.mp hs
    exact .step ih trivial hb

theorem audit {P : Params} {s : Audited} (h : (audited P).Reachable s) :
    Audit s.base.shared s.base.threads s.written := by
  refine h.invariant (I := fun s => Audit s.base.shared s.base.threads s.written) (fun s hs => ?_)
    fun s a s' hr ih _ hs => ?_
  · refine ⟨fun c cyc hc => ?_, by simp [hs.2]⟩
    simp [hs.1.1.cycles] at hc
  · obtain ⟨b, hb, rfl⟩ := Option.map_eq_some_iff.mp hs
    have L := ledgered (audited_base hr)
    exact ih.step L (step_cases L.placed hb) (ledgered (.step (audited_base hr) trivial hb))

/-! ## Published once -/

/-- What the observers of a launched cycle see: `reset` is what it announced, `written` what its
writes returned. -/
structure PublishedOnce (cyc : Cycle) (reset : List JobRecord) (sigs : List Signal)
    (written : List JobRecord) : Prop where
  /-- Of each key nothing is published that was not written, nothing twice, and nothing out of
  order. -/
  ordered : ∀ k, recordsAt k (published sigs) <+: recordsAt k (reset ++ written)
  monotone : (progressOf sigs).Pairwise fun p q => p.1 ≤ q.1
  bounded : ∀ p ∈ progressOf sigs, p.1 ≤ cyc.total ∧ p.2 = cyc.total
  /-- When the cycle is finished, everything has been published, the last progress was complete, and
  nothing follows. -/
  finished : ∀ rep, Signal.finished rep ∈ sigs →
    (∀ k, recordsAt k (published sigs) = recordsAt k (reset ++ written)) ∧
    ∃ before after, sigs = before ++ Signal.finished rep :: after ∧
      (progressOf before).getLast? = some (cyc.total, cyc.total) ∧
      after.filterMap Signal.batch? = [] ∧ progressOf after = [] ∧
      ∀ rep', Signal.finished rep' ∉ before ++ after

/-- **Every transition of a launched submission is published once, in order, and before the end**,
where every emission is one step. -/
theorem publishedOnce {P : Params} {s : Audited} (h : (audited P).Reachable s) {c : ℕ} {cyc : Cycle}
    (hc : s.base.shared.cycles[c]? = some cyc) {reset : List JobRecord}
    (hreset : (c, Signal.recordsReset reset) ∈ s.base.shared.log) :
    PublishedOnce cyc reset (ofCycle c s.base.shared.log) (ofCycle c s.written) := by
  have L := ledgered (audited_base h)
  have B := L.cycles c cyc hc
  have A := (audit h).cycles c cyc hc
  obtain ⟨l, hl, An⟩ : ∃ l, (ofCycle c s.base.shared.log).filterMap Signal.reset? = [l] ∧
      Announced l cyc (codesOf c s.base.threads) (ofCycle c s.base.shared.log)
        (ofCycle c s.written) := by
    refine A.phase.resolve_left fun hU => ?_
    have := List.filterMap_eq_nil_iff.mp hU.1 _ (mem_ofCycle.mpr hreset)
    simp [Signal.reset?] at this
  obtain rfl : reset = l := by
    have : reset ∈ (ofCycle c s.base.shared.log).filterMap Signal.reset? :=
      List.mem_filterMap.mpr ⟨_, mem_ofCycle.mpr hreset, rfl⟩
    rw [hl] at this
    exact List.mem_singleton.mp this
  refine ⟨fun k => ?_, A.monotone, fun p hp => ?_, fun rep hrep => ?_⟩
  · rw [An.ordered k, List.append_assoc, recordsAt_append]
    exact List.prefix_append _ _
  · exact ⟨(A.bounded p hp).1.trans B.done_le, (A.bounded p hp).2⟩
  · have hf : cyc.finished = true := by
      have honce := B.once
      have hmem := mem_reportsOf.mpr (mem_ofCycle.mp hrep)
      rcases hfin : cyc.finished with _ | _
      · rw [hfin, Bool.toNat_false, Nat.le_zero, List.length_eq_zero_iff] at honce
        rw [honce] at hmem
        cases hmem
      · rfl
    obtain ⟨hbuf, before, rep', after, hsigs, hlast, hbatch, hprog⟩ := An.flushed hf
    have hnotes : (codesOf c s.base.threads).flatMap codeNotes = [] := by
      refine List.flatMap_eq_nil_iff.mpr fun code hcode => ?_
      refine List.eq_nil_iff_forall_not_mem.mpr fun r hr => ?_
      have hunit := (A.backed code hcode).unit hr
      have hle : codeUnits cyc.keys code ≤ _ := codeUnits_le_held (mem_codesOf.mp hcode) rfl
      rw [(B.idle hf).1] at hle
      exact absurd (Multiset.mem_of_le hle hunit) (Multiset.notMem_zero _)
    refine ⟨fun k => by rw [An.ordered k, hbuf, hnotes, List.append_nil, List.append_nil], ?_⟩
    have honce := B.once
    rw [reportsOf_eq, hsigs, List.filterMap_append, List.filterMap_cons, hf] at honce
    simp only [Signal.report?, List.length_append, List.length_cons, Bool.toNat_true] at honce
    have hnone : ∀ r, Signal.finished r ∉ before ++ after := by
      intro r hr
      have hpos : 0 < ((before ++ after).filterMap Signal.report?).length :=
        List.length_pos_of_mem (List.mem_filterMap.mpr ⟨_, hr, rfl⟩)
      rw [List.filterMap_append, List.length_append] at hpos
      omega
    obtain rfl : rep = rep' := by
      rw [hsigs] at hrep
      rcases List.mem_append.mp hrep with hr | hr
      · exact absurd (List.mem_append_left _ hr) (hnone rep)
      · rcases List.mem_cons.mp hr with hr | hr
        · exact Signal.finished.inj hr
        · exact absurd (List.mem_append_right _ hr) (hnone rep)
    exact ⟨before, after, hsigs, hlast, hbatch, hprog, hnone⟩

end Lsfmgr.Submit
