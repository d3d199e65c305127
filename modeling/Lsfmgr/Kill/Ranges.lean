import Mathlib
import Lsfmgr.Kill.Confirm

/-!
# Kill/Ranges — the targets `bkill` can confirm

A line of `bkill` names a job or one element, and `_parse_bkill_resolved` takes it for the target
that is spelt in this way, or for the bare id before the bracket.  No line is spelt like a range,
nor like an id with leading zeros: such a target stays pending whatever `bkill` says of its
elements.
-/

namespace Lsfmgr.Kill

open Machinery Command

variable {py : Python}

/-- The target is written as LSF writes the id of a job or of an element. -/
def Printed (t : Text) : Prop := ∃ pid index, t = idStr pid index

/-- The line is about what the target denotes. -/
def LineAbout (sel : Selector) (r : Response) : Prop :=
  ∃ index, sel.selects index = true ∧ r.jid = idStr sel.jobId index

/-- **What `bkill` is to print for a target**: a line about each element of it, for a bare id one
about the job or an element, and none of them says anything but that the signal was accepted or the
job is gone. -/
structure Settles (py : Python) (sel : Selector) (text : Text) : Prop where
  any : ∃ r ∈ responses py text, LineAbout sel r
  each : sel.isPart = true → ∀ i, sel.selects (some i) = true →
    ∃ r ∈ responses py text, r.jid = idStr sel.jobId (some i)
  only : ∀ r ∈ responses py text, LineAbout sel r → r.accepted = true ∨ r.gone = true

/-! ## Ids -/

theorem bracket_notMem_toDigits (n : ℕ) : '[' ∉ Nat.toDigits 10 n := fun h => by
  have hdigit := isDigit_of_mem_toDigits h
  cases hdigit

theorem readDigits_toDigits_eq (hpy : py.Lawful) {n m : ℕ}
    (h : readDigits py (Nat.toDigits 10 n) = .ok m) : m = n := by
  by_cases hlimit : py.withinLimit (Nat.toDigits 10 n).length = true
  · exact (Except.ok.inj ((readDigits_toDigits hpy hlimit).symm.trans h)).symm
  · rw [readDigits, hpy.mapM_decimal fun _ => isDigit_of_mem_toDigits, Option.bind_some,
      Python.number?, if_neg (by simpa using hlimit)] at h
    cases h

/-- What a printed target denotes. -/
theorem classifyTarget_printed (hpy : py.Lawful) {pid : ℕ} {index : Option ℕ} {sel : Selector}
    (h : classifyTarget py (idStr pid index) = .ok (some sel)) : sel = .of pid index := by
  cases index with
  | none =>
    rw [idStr, classifyTarget, matchTarget_id hpy] at h
    cases hread : readDigits py (Nat.toDigits 10 pid) with
    | error e => simp [hread, Except.map] at h
    | ok n =>
      obtain rfl := readDigits_toDigits_eq hpy hread
      simp only [hread, Except.map, Except.ok.injEq, Option.some.injEq] at h
      exact h.symm
  | some i =>
    rw [idStr, List.append_assoc, List.cons_append, classifyTarget, matchTarget_element hpy] at h
    cases hread : readDigits py (Nat.toDigits 10 pid) with
    | error e => simp [hread, bind, Except.bind] at h
    | ok n =>
      cases hread' : readDigits py (Nat.toDigits 10 i) with
      | error e => simp [hread, hread', bind, Except.bind] at h
      | ok k =>
        obtain rfl := readDigits_toDigits_eq hpy hread
        obtain rfl := readDigits_toDigits_eq hpy hread'
        simp only [hread, hread', bind, Except.bind, Except.ok.injEq, Option.some.injEq] at h
        exact h.symm

/-- The id before the bracket of a printed one. -/
theorem idStr_eq_append {p : ℕ} {i : Option ℕ} {t rest : Text} (ht : '[' ∉ t)
    (h : idStr p i = t ++ '[' :: rest) : t = Nat.toDigits 10 p ∧ ∃ k, i = some k := by
  cases i with
  | none =>
    have hmem : '[' ∈ idStr p none := by rw [h]; simp
    exact absurd hmem (bracket_notMem_toDigits p)
  | some k =>
    refine ⟨?_, k, rfl⟩
    have hleft := (before_eq_iff.mpr ⟨ht, rest, h⟩).2
    have hright := (before_eq_iff.mpr ⟨bracket_notMem_toDigits p, Nat.toDigits 10 k ++ [']'],
      show idStr p (some k) = Nat.toDigits 10 p ++ '[' ::
        (Nat.toDigits 10 k ++ [']']) by simp [idStr]⟩).2
    exact hleft.symm.trans hright

/-- **The lines that count for a printed target** are those about what it denotes. -/
theorem about_iff_lineAbout {pid : ℕ} {index : Option ℕ} {requested : Finset Text} {r : Response}
    (hrequested : idStr pid index ∈ requested) (hr : Printed r.jid) :
    About requested (idStr pid index) r ↔ LineAbout (.of pid index) r := by
  obtain ⟨p, i, hjid⟩ := hr
  cases index with
  | none =>
    constructor
    · rintro (heq | ⟨-, hbare, rest, heq⟩)
      · exact ⟨none, rfl, heq⟩
      · rw [hjid] at heq
        obtain ⟨hp, k, rfl⟩ := idStr_eq_append hbare heq
        refine ⟨some k, rfl, ?_⟩
        rw [hjid, idStr, ← hp]
        rfl
    · rintro ⟨k, -, heq⟩
      cases k with
      | none => exact .inl heq
      | some k =>
        refine .inr ⟨hrequested, bracket_notMem_toDigits pid, Nat.toDigits 10 k ++ [']'], ?_⟩
        rw [heq]
        simp [idStr, Selector.of, Selector.jobId]
  | some i =>
    constructor
    · rintro (heq | ⟨-, hbare, -⟩)
      · exact ⟨some i, by simp [Selector.of, Selector.selects], heq⟩
      · exact absurd (by simp [idStr]) hbare
    · rintro ⟨k, hk, heq⟩
      simp only [Selector.of, Selector.selects, decide_eq_true_eq] at hk
      subst hk
      exact .inl heq

/-- No line counts for a target that is not printed. -/
theorem not_about {t : Text} {requested : Finset Text} {r : Response} (ht : ¬ Printed t)
    (hr : Printed r.jid) :
    ¬ About requested t r := by
  obtain ⟨p, i, hjid⟩ := hr
  rintro (heq | ⟨-, hbare, rest, heq⟩)
  · exact ht ⟨p, i, heq.symm.trans hjid⟩
  · rw [hjid] at heq
    exact ht ⟨p, none, (idStr_eq_append hbare heq).1⟩

/-! ## Rounds -/

/-- What the chunks of a round resolve, and which targets time out. -/
theorem mem_foldlM_merge {answer : List Text → BkillAnswer} {chunks : List (List Text)}
    {o r : BkillOutcome}
    (h : chunks.foldlM (fun o c => o.merge py c (answer c)) o = .ok r) (t : Text) :
    (t ∈ r.resolved ↔ t ∈ o.resolved ∨ ∃ c ∈ chunks, ∃ stdout stderr,
      answer c = .output stdout stderr ∧
      t ∈ (parseBkillResolved py (stdout ++ '\n' :: stderr) c.toFinset).1) ∧
    (t ∈ r.timedOut ↔ t ∈ o.timedOut ∨ ∃ c ∈ chunks, answer c = .timeout ∧ t ∈ c) := by
  induction chunks generalizing o with
  | nil =>
    obtain rfl := Except.ok.inj h
    simp
  | cons c chunks ih =>
    rw [List.foldlM_cons] at h
    cases ha : answer c with
    | raised =>
      rw [ha] at h
      cases h
    | timeout =>
      rw [ha] at h
      obtain ⟨hres, hlate⟩ := ih h
      simp only [hres, hlate, Finset.mem_union, List.mem_toFinset, List.mem_cons,
        exists_eq_or_imp, ha, reduceCtorEq, false_and, exists_false, false_or, true_and,
        or_assoc, and_self]
    | output stdout stderr =>
      rw [ha] at h
      obtain ⟨hres, hlate⟩ := ih h
      simp only [hres, hlate, Finset.mem_union, List.mem_cons, exists_eq_or_imp, ha,
        reduceCtorEq, false_and, false_or, BkillAnswer.output.injEq, or_assoc]
      refine ⟨or_congr_right (or_congr_left ⟨fun hmem => ⟨_, _, ⟨rfl, rfl⟩, hmem⟩, ?_⟩), trivial⟩
      rintro ⟨_, _, ⟨rfl, rfl⟩, hmem⟩
      exact hmem

/-- What `_kill_confirm` may raise. -/
inductive KillError
  | bkill (e : BkillError)
  | int (e : PyError)
  deriving DecidableEq

section

variable (py) (cfg : Config) (order : ℕ → List (List Text) → List (List Text))
  (answer : ℕ → List Text → BkillAnswer) (query : ℕ → List ℕ → Option (List JobStatus × Finset ℕ))

/-- The `bkill` of each round; its chunks complete in the order of the round. -/
def bkillOf (n : ℕ) (targets : List Text) : Except KillError BkillOutcome :=
  (bkillTargetsConfirm py cfg (order n) (answer n) targets).mapError .bkill

/-- The query of each round. -/
def requeryOf (n : ℕ) (targets : Finset Text) : Except KillError Confirmed :=
  (confirmByQuery py (query n) targets).mapError .int

end

/-- The query confirms only what it was asked. -/
theorem gone_subset {answer : List ℕ → Option (List JobStatus × Finset ℕ)} {targets : Finset Text}
    {c : Confirmed} (h : confirmByQuery py answer targets = .ok c) : c.gone ⊆ targets := by
  rw [confirmByQuery] at h
  split_ifs at h
  dsimp only at h
  split_ifs at h
  · obtain rfl := Except.ok.inj h
    exact Finset.empty_subset _
  · split at h
    · obtain rfl := Except.ok.inj h
      exact Finset.empty_subset _
    · split_ifs at h
      obtain rfl := Except.ok.inj h
      exact Finset.filter_subset _ _

section

variable {cfg : Config} {order : ℕ → List (List Text) → List (List Text)}
    {answer : ℕ → List Text → BkillAnswer}
  {query : ℕ → List ℕ → Option (List JobStatus × Finset ℕ)} {n : ℕ} {t : Text} {sel : Selector}

/-- The ids in what `bkill` prints are written as LSF writes them. -/
def PrintsIds (py : Python) (answer : ℕ → List Text → BkillAnswer) : Prop :=
  ∀ n chunk stdout stderr, answer n chunk = .output stdout stderr →
    ∀ r ∈ responses py (stdout ++ '\n' :: stderr), Printed r.jid

/-- Every `bkill` of a round that includes the target prints this for it. -/
def PrintsFor (py : Python) (cfg : Config) (answer : ℕ → List Text → BkillAnswer)
    (t : Text) (sel : Selector)
    (n : ℕ) (sent : List Text) : Prop :=
  ∀ chunk ∈ (cfg.bkillChunks sent).chunks, t ∈ chunk → ∃ stdout stderr,
    answer n chunk = .output stdout stderr ∧ Settles py sel (stdout ++ '\n' :: stderr)

/-- The chunks of a round that returns. -/
theorem bkillOf_eq {sent : List Text} {o : BkillOutcome}
    (h : bkillOf py cfg order answer n sent = .ok o) :
    (cfg.bkillChunks sent).chunks.flatten = sent ∧
      (order n (cfg.bkillChunks sent).chunks).foldlM
        (fun (o : BkillOutcome) c => o.merge py c (answer n c)) {} = .ok o := by
  rw [bkillOf] at h
  cases hok : bkillTargetsConfirm py cfg (order n) (answer n) sent with
  | error e =>
    rw [hok] at h
    cases h
  | ok o' =>
    rw [hok] at h
    obtain rfl := Except.ok.inj h
    rw [bkillTargetsConfirm] at hok
    split at hok
    · cases hok
    case h_2 hraised => exact ⟨flatten_chunkArgs (raised_chunkArgs_eq_none_iff.mp hraised), hok⟩

/-- **A printed target is resolved** in the round it is sent in. -/
theorem resolved_of_printed (hpy : py.Lawful) (horder : ∀ n cs, (order n cs).Perm cs)
    (hsel : classifyTarget py t = .ok (some sel)) (hids : PrintsIds py answer) (ht : Printed t)
    {sent : List Text} {o : BkillOutcome} (hsent : t ∈ sent)
    (hprints : PrintsFor py cfg answer t sel n sent)
    (h : bkillOf py cfg order answer n sent = .ok o) : t ∈ o.resolved := by
  obtain ⟨hflat, hfold⟩ := bkillOf_eq h
  rw [← hflat, List.mem_flatten] at hsent
  obtain ⟨chunk, hchunk, htc⟩ := hsent
  obtain ⟨stdout, stderr, hanswer, hsettles⟩ := hprints chunk hchunk htc
  obtain ⟨pid, index, rfl⟩ := ht
  obtain rfl := classifyTarget_printed hpy hsel
  have habout : ∀ r ∈ responses py (stdout ++ '\n' :: stderr),
      (About chunk.toFinset (idStr pid index) r ↔ LineAbout (.of pid index) r) := fun r hr =>
    about_iff_lineAbout (List.mem_toFinset.mpr htc) (hids _ _ _ _ hanswer r hr)
  refine ((mem_foldlM_merge hfold _).1).mpr
    (.inr ⟨chunk, (horder n _).mem_iff.mpr hchunk, stdout, stderr, hanswer,
    mem_resolved_iff.mpr ⟨?_, fun r hr hline => hsettles.only r hr ((habout r hr).mp hline)⟩⟩)
  obtain ⟨r, hr, hline⟩ := hsettles.any
  exact ⟨r, hr, (habout r hr).mpr hline, hsettles.only r hr hline⟩

/-- **Any other target is never resolved**, by no `bkill`… -/
theorem not_resolved (horder : ∀ n cs, (order n cs).Perm cs) (hids : PrintsIds py answer)
    (ht : ¬ Printed t)
    {sent : List Text} {o : BkillOutcome} (hprints : PrintsFor py cfg answer t sel n sent)
    (h : bkillOf py cfg order answer n sent = .ok o) : t ∉ o.resolved ∧ t ∉ o.timedOut := by
  obtain ⟨-, hfold⟩ := bkillOf_eq h
  obtain ⟨hres, hlate⟩ := mem_foldlM_merge hfold t
  rw [hres, hlate]
  constructor
  · rintro (hempty | ⟨chunk, -, stdout, stderr, hanswer, hmem⟩)
    · exact absurd hempty (Finset.notMem_empty _)
    · obtain ⟨⟨r, hr, habout, -⟩, -⟩ := mem_resolved_iff.mp hmem
      exact not_about ht (hids _ _ _ _ hanswer r hr) habout
  · rintro (hempty | ⟨chunk, hchunk, htimeout, htc⟩)
    · exact absurd hempty (Finset.notMem_empty _)
    · obtain ⟨stdout, stderr, hanswer, -⟩ := hprints chunk ((horder n _).mem_iff.mp hchunk) htc
      rw [htimeout] at hanswer
      cases hanswer

/-- …and in no round. -/
theorem not_settled (horder : ∀ n cs, (order n cs).Perm cs) (hids : PrintsIds py answer)
    (ht : ¬ Printed t)
    {targets : Finset Text} {rounds : List Round} {round : Round}
    (hround : Happened (bkillOf py cfg order answer) (requeryOf py query) targets rounds n round)
    (hprints : t ∈ round.sent → PrintsFor py cfg answer t sel n (round.sent.sort (· ≤ ·)))
    (hsent : t ∈ round.sent) : t ∉ round.settled := by
  obtain ⟨hres, hlate⟩ := not_resolved horder hids ht (hprints hsent) hround.outcome
  rw [Round.settled, Finset.mem_union, not_or]
  refine ⟨hres, fun hgone => ?_⟩
  have hasked := hround.confirmed
  rw [askUnknown] at hasked
  split at hasked
  · obtain hc := Except.ok.inj hasked
    rw [← hc] at hgone
    exact absurd hgone (Finset.notMem_empty _)
  · cases hok : confirmByQuery py (query n) round.unknown with
    | error e =>
      rw [requeryOf, hok] at hasked
      cases hasked
    | ok c =>
      rw [requeryOf, hok] at hasked
      obtain hc := Except.ok.inj hasked
      rw [← hc] at hgone
      have hunknown := gone_subset hok hgone
      rw [Round.unknown, Finset.mem_inter] at hunknown
      exact hlate hunknown.1

end

/-- A target of the kill is in the first round. -/
theorem mem_sent_zero {ε : Type} {bkill : ℕ → List Text → Except ε BkillOutcome}
    {requery : ℕ → Finset Text → Except ε Confirmed} {t : Text} {targets : Finset Text}
    (ht : t ∈ targets)
    {rounds : List Round} {round : Round} (h : Happened bkill requery targets rounds 0 round) :
    t ∈ round.sent := by
  rw [h.sent, unsettled]
  simpa using ht

/-- The target is resolved in the round it is sent in, sent once, and not among the unconfirmed
ones. -/
structure ConfirmedAtOnce (t : Text) (targets : List Text) (r : KillConfirmed) : Prop where
  resolved : ∀ round ∈ r.rounds, t ∈ round.sent → t ∈ round.settled
  once : ∀ i round, r.rounds[i]? = some round → t ∈ round.sent → i = 0
  counted : t ∉ unsettled targets.toFinset r.rounds

/-- **Which targets `bkill` can confirm**: when every `bkill` that includes a target prints, for
every element of it, that the signal was accepted or the job is gone and nothing else about it,
`_kill_confirm` takes it for resolved in that round, sends it no more and does not count it as
unconfirmed, if and only if the target is written as LSF writes ids: a range is not, nor an id with
leading zeros. -/
theorem confirmed_iff_printed (hpy : py.Lawful) (cfg : Config)
    (order : ℕ → List (List Text) → List (List Text)) (horder : ∀ n cs, (order n cs).Perm cs)
    (answer : ℕ → List Text → BkillAnswer) (hids : PrintsIds py answer)
    (query : ℕ → List ℕ → Option (List JobStatus × Finset ℕ))
    (repr : List Text → Text) (maxRetry : ℕ)
    (targets errors : List Text) {t : Text} {sel : Selector} (ht : t ∈ targets)
    (hsel : classifyTarget py t = .ok (some sel)) {r : KillConfirmed}
    (hr : killConfirm (bkillOf py cfg order answer) (requeryOf py query) repr maxRetry
      targets errors = .ok r)
    (hprints : ∀ i round, r.rounds[i]? = some round → t ∈ round.sent →
      PrintsFor py cfg answer t sel i (round.sent.sort (· ≤ ·))) :
    ConfirmedAtOnce t targets r ↔ Printed t := by
  obtain ⟨p, hp, hlen, -, -, rfl⟩ := killConfirm_eq hr
  have hhappened := hp.happened
  have hmem : t ∈ targets.toFinset := List.mem_toFinset.mpr ht
  obtain ⟨first, hfirst⟩ : ∃ first, p.rounds[0]? = some first :=
    ⟨_, List.getElem?_eq_getElem (by omega)⟩
  constructor
  · intro hconf
    by_contra hnot
    -- what no round has resolved is sent again, and not resolved again
    have hnever : ∀ (i : ℕ) (round : Round), p.rounds[i]? = some round → t ∉ round.settled := by
      intro i
      induction i using Nat.strong_induction_on with
      | _ i ih =>
        intro round hround
        have hsent : t ∈ round.sent := by
          rw [(hhappened i round hround).sent, unsettled, Finset.mem_filter]
          refine ⟨hmem, fun earlier hearlier => ?_⟩
          obtain ⟨j, hj, rfl⟩ := List.mem_take_iff_getElem.mp hearlier
          exact ih j (by omega) _ (List.getElem?_eq_getElem (by omega))
        exact not_settled horder hids hnot (hhappened i round hround) (hprints i round hround) hsent
    refine hconf.counted (Finset.mem_filter.mpr ⟨hmem, fun (round : Round) hround => ?_⟩)
    obtain ⟨i, hi⟩ := List.mem_iff_getElem?.mp hround
    exact hnever i round hi
  · intro hprinted
    have hsettled :
        ∀ (i : ℕ) (round : Round), p.rounds[i]? = some round → t ∈ round.sent → t ∈ round.settled :=
      fun i round hround hsent => Finset.mem_union_left _
        (resolved_of_printed hpy horder hsel hids hprinted
        ((Finset.mem_sort _).mpr hsent) (hprints i round hround hsent)
          (hhappened i round hround).outcome)
    have hdone : t ∈ first.settled :=
      hsettled 0 first hfirst (mem_sent_zero hmem (hhappened 0 first hfirst))
    refine ⟨fun round hround => ?_, fun i round hround hsent => ?_, fun hleft => ?_⟩
    · obtain ⟨i, hi⟩ := List.mem_iff_getElem?.mp hround
      exact hsettled i round hi
    · by_contra hne
      rw [(hhappened i round hround).sent, unsettled, Finset.mem_filter] at hsent
      refine hsent.2 first (List.mem_take_iff_getElem.mpr ⟨0, by omega, ?_⟩) hdone
      exact Option.some.inj ((List.getElem?_eq_getElem (by omega)).symm.trans hfirst)
    · exact (Finset.mem_filter.mp hleft).2 first (List.mem_of_getElem? hfirst) hdone

/-- A kill of one target without retries. -/
theorem killConfirm_one {ε : Type} (bkill : ℕ → List Text → Except ε BkillOutcome)
    (requery : ℕ → Finset Text → Except ε Confirmed) (repr : List Text → Text) (t : Text)
    (o : BkillOutcome)
    (h : bkill 0 [t] = .ok o) (hlate : o.timedOut = ∅) :
    ∃ r, killConfirm bkill requery repr 0 [t] [] = .ok r ∧
        r.rounds = [{ sent := {t}, outcome := o }] := by
  have hround : confirmRound bkill requery { pending := {t} }
      = .ok (({ pending := {t} } : Progress).absorb o {}) := by
    simp only [confirmRound, Finset.sort_singleton, h, hlate, Finset.empty_inter,
      askUnknown, if_true, bind, Except.bind]
  simp only [killConfirm, confirmLoop, List.toFinset_cons, List.toFinset_nil,
    insert_empty_eq, hround, bind, Except.bind]
  exact ⟨_, rfl, rfl⟩

/-- `bkill` prints the same whatever it is called with. -/
def always (text : String) (_ : ℕ) (_ : List Text) : BkillAnswer := .output text.toList []

theorem printsIds_always {text : String} {rs : List Response}
    (h : responses Python.ascii (text.toList ++ '\n' :: []) = rs) (hrs : ∀ r ∈ rs, Printed r.jid) :
    PrintsIds Python.ascii (always text) := by
  intro n chunk stdout stderr heq r hr
  obtain ⟨rfl, rfl⟩ := BkillAnswer.output.inj heq
  rw [h] at hr
  exact hrs r hr

/-- A job is confirmed at once. -/
theorem confirmed_iff_printed_job :
    ∃ r, killConfirm
      (bkillOf Python.ascii {} (fun _ cs => cs) (always "Job <7> is being terminated"))
        (requeryOf Python.ascii fun _ _ => none) (fun _ => []) 0 ["7".toList] [] = .ok r ∧
      (ConfirmedAtOnce "7".toList ["7".toList] r ↔ Printed "7".toList) := by
  have hresponses : responses Python.ascii ("Job <7> is being terminated".toList ++ '\n' :: []) =
      [⟨"7".toList, "is being terminated".toList⟩] := by decide +kernel
  have hseven : ("7".toList : Text) = idStr 7 none := rfl
  have hsel : classifyTarget Python.ascii "7".toList = .ok (some (.whole 7)) := by decide
  obtain ⟨r, hr, -⟩ := killConfirm_one
    (bkillOf Python.ascii {} (fun _ cs => cs) (always "Job <7> is being terminated"))
    (requeryOf Python.ascii fun _ _ => none) (fun _ => []) "7".toList
    { resolved := {"7".toList}, accepted := {"7".toList}, calls := 1 } (by rfl) rfl
  refine ⟨r, hr, confirmed_iff_printed Python.ascii_lawful {} (fun _ cs => cs) (fun _ _ => .refl _)
    (always "Job <7> is being terminated")
    (printsIds_always hresponses (by simpa using ⟨7, none, hseven⟩))
      (fun _ _ => none) (fun _ => []) 0
    ["7".toList] [] List.mem_cons_self hsel hr
    fun i round _ _ chunk _ _ => ⟨_, _, rfl, ?_⟩⟩
  refine ⟨?_, fun hpart => (by cases hpart), ?_⟩ <;> rw [hresponses]
  · exact ⟨_, List.mem_singleton_self _, none, rfl, hseven⟩
  · exact List.forall_mem_singleton.mpr fun _ => .inl (by decide)

/-- Two of three elements are killed, and the last one has ended before. -/
def threeLines : String :=
  "Job <7[1]> is being terminated\nJob <7[2]> is being terminated\nJob <7[3]>: Job has already finished"

/-- Every element of the range is answered for, and the range is counted as unconfirmed. -/
theorem not_confirmed_range :
    ∃ r, killConfirm (bkillOf Python.ascii {} (fun _ cs => cs) (always threeLines))
        (requeryOf Python.ascii fun _ _ => none) (fun _ => []) 0 ["7[1-3]".toList] [] = .ok r ∧
      classifyTarget Python.ascii "7[1-3]".toList = .ok (some (.range 7 1 3)) ∧
      PrintsIds Python.ascii (always threeLines) ∧
      (∀ n sent, PrintsFor Python.ascii {} (always threeLines) "7[1-3]".toList
        (.range 7 1 3) n sent) ∧
      r.unconfirmed = 1 ∧ ¬ ConfirmedAtOnce "7[1-3]".toList ["7[1-3]".toList] r := by
  have hresponses : responses Python.ascii (threeLines.toList ++ '\n' :: []) =
      [⟨"7[1]".toList, "is being terminated".toList⟩, ⟨"7[2]".toList, "is being terminated".toList⟩,
        ⟨"7[3]".toList, "job has already finished".toList⟩] := by decide +kernel
  have hone : ("7[1]".toList : Text) = idStr 7 (some 1) := rfl
  have htwo : ("7[2]".toList : Text) = idStr 7 (some 2) := rfl
  have hthree : ("7[3]".toList : Text) = idStr 7 (some 3) := rfl
  obtain ⟨r, hr, hrounds⟩ := killConfirm_one
    (bkillOf Python.ascii {} (fun _ cs => cs) (always threeLines))
    (requeryOf Python.ascii fun _ _ => none) (fun _ => []) "7[1-3]".toList
    { resolved := {"7[1]".toList, "7[2]".toList, "7[3]".toList}
      accepted := {"7[1]".toList, "7[2]".toList}, calls := 1 } (by rfl) rfl
  have hleft : unsettled ["7[1-3]".toList].toFinset r.rounds = {"7[1-3]".toList} := by
    rw [hrounds]
    decide
  refine ⟨r, hr, by decide, printsIds_always hresponses ?_,
    fun n sent chunk _ _ => ⟨_, _, rfl, ?_⟩, ?_, fun h =>
    h.counted (by rw [hleft]; exact Finset.mem_singleton_self _)⟩
  · simp only [List.forall_mem_cons]
    exact ⟨⟨7, some 1, hone⟩, ⟨7, some 2, htwo⟩, ⟨7, some 3, hthree⟩, by simp⟩
  · refine ⟨?_, fun _ i hi => ?_, ?_⟩ <;> rw [hresponses]
    · exact ⟨_, List.mem_cons_self, some 1, rfl, hone⟩
    · obtain ⟨hlo, hhi⟩ : 1 ≤ i ∧ i ≤ 3 := by simpa [Selector.selects] using hi
      obtain rfl | rfl | rfl : i = 1 ∨ i = 2 ∨ i = 3 := by omega
      · exact ⟨_, List.mem_cons_self, hone⟩
      · exact ⟨_, List.mem_cons_of_mem _ List.mem_cons_self, htwo⟩
      · exact ⟨_, List.mem_cons_of_mem _ (List.mem_cons_of_mem _ List.mem_cons_self), hthree⟩
    · intro r hr _
      simp only [List.mem_cons, List.not_mem_nil, or_false] at hr
      rcases hr with rfl | rfl | rfl
      · exact .inl (by decide)
      · exact .inl (by decide)
      · exact .inr (by decide)
  · obtain ⟨p, hp, -, -, -, rfl⟩ := killConfirm_eq hr
    have hpending : p.pending = {"7[1-3]".toList} := hp.pending.trans hleft
    exact (congrArg Finset.card hpending).trans (Finset.card_singleton _)

end Lsfmgr.Kill
