import Mathlib
import Lsfmgr.Command.Argv
import Lsfmgr.Kill.Select

/-!
# Kill/Bkill — `bkill_targets_confirm`, one `bkill` for each chunk of the targets

The chunks run on a pool of workers and complete in some order; the caller merges what each of them
says, read with the chunk's own targets as the requested ones.  A chunk whose `bkill` does not
return in time says nothing, and its targets are handed back apart.
-/

namespace Lsfmgr.Kill

open Machinery Command

/-- How the `bkill` of a chunk ends. -/
inductive BkillAnswer
  | output (stdout stderr : Text)
  /-- `subprocess.TimeoutExpired` -/
  | timeout
  /-- The runner raises something else. -/
  | raised

/-- Why no outcome is returned. -/
inductive BkillError
  | argMaxExceeded (message : Text)
  | runner
  deriving DecidableEq

/-- What `bkill_targets_confirm` returns. -/
structure BkillOutcome where
  resolved : Finset Text := ∅
  accepted : Finset Text := ∅
  calls : ℕ := 0
  timedOut : Finset Text := ∅
  deriving DecidableEq

section

variable (py : Python)

/-- `run_chunk`, merged into what the chunks before it said. -/
def BkillOutcome.merge (o : BkillOutcome) (chunk : List Text) :
    BkillAnswer → Except BkillError BkillOutcome
  | .output stdout stderr =>
    let (got, acc) := parseBkillResolved py (stdout ++ '\n' :: stderr) chunk.toFinset
    .ok { o with resolved := o.resolved ∪ got, accepted := o.accepted ∪ acc, calls := o.calls + 1 }
  | .timeout => .ok { o with timedOut := o.timedOut ∪ chunk.toFinset, calls := o.calls + 1 }
  | .raised => .error .runner

/-- `bkill_targets_confirm`; `order` puts the chunks into the order they complete in. -/
def bkillTargetsConfirm (cfg : Config) (order : List (List Text) → List (List Text))
    (answer : List Text → BkillAnswer) (targets : List Text) : Except BkillError BkillOutcome :=
  match (cfg.bkillChunks targets).raised with
  | some message => .error (.argMaxExceeded message)
  | none => (order (cfg.bkillChunks targets).chunks).foldlM
      (fun o chunk => o.merge py chunk (answer chunk)) {}

end

/-- A pool of workers can complete tasks in this order: it starts the next one that waits while a
worker is free, and any that runs may be the next to end. -/
inductive Completes {α : Type} (workers : ℕ) : List α → List α → List α → Prop
  | done : Completes workers [] [] []
  | start {running waiting order : List α} {c : α} : running.length < workers →
      Completes workers (running ++ [c]) waiting order →
        Completes workers running (c :: waiting) order
  | finish {before after waiting order : List α} {c : α} :
      Completes workers (before ++ after) waiting order →
        Completes workers (before ++ c :: after) waiting (c :: order)

/-- Every task completes, once. -/
theorem Completes.perm {α : Type} {workers : ℕ} {running waiting order : List α}
    (h : Completes workers running waiting order) : order.Perm (running ++ waiting) := by
  induction h with
  | done => exact .refl _
  | start _ _ ih => simpa using ih
  | finish _ ih =>
    refine (ih.cons _).trans ?_
    rw [List.append_assoc, List.append_assoc, List.cons_append]
    exact List.perm_middle.symm

/-- One worker completes them in their order. -/
theorem completes_serial {α : Type} : ∀ cs : List α, Completes 1 [] cs cs
  | [] => .done
  | _ :: cs => .start Nat.one_pos (Completes.finish (completes_serial cs))

/-! ## What the chunks say together -/

section

variable {py : Python}

/-- The lines about jobs that `bkill` prints for a target. -/
def linesFor (py : Python) (out : Text → List Text) (t : Text) : List Response :=
  (out t).filterMap (bkillLine py)

/-- The lines about jobs that a text has are those for these targets, in any order. -/
def Answers (py : Python) (out : Text → List Text) (chunk : List Text) (text : Text) : Prop :=
  (responses py text).Perm (chunk.flatMap (linesFor py out))

instance (py : Python) (out : Text → List Text) (chunk : List Text) (text : Text) :
    Decidable (Answers py out chunk text) :=
  inferInstanceAs (Decidable (List.Perm _ _))

/-- The lines for the targets resolve `j`, when some of the targets are requested. -/
def SaysResolved (py : Python) (out : Text → List Text) (chunk : List Text)
    (requested : Finset Text) (j : Text) : Prop :=
  (∃ t ∈ chunk, ∃ r ∈ linesFor py out t, About requested j r ∧
      (r.accepted = true ∨ r.gone = true)) ∧
    ∀ t ∈ chunk, ∀ r ∈ linesFor py out t, About requested j r → r.accepted = true ∨ r.gone = true

/-- One of them says that the signal for `j` was accepted. -/
def SaysAccepted (py : Python) (out : Text → List Text) (chunk : List Text)
    (requested : Finset Text) (j : Text) : Prop :=
  ∃ t ∈ chunk, ∃ r ∈ linesFor py out t, About requested j r ∧ r.accepted = true

variable {out : Text → List Text} {chunk : List Text} {text : Text} {requested : Finset Text}

theorem mem_responses (h : Answers py out chunk text) (r : Response) :
    r ∈ responses py text ↔ ∃ t ∈ chunk, r ∈ linesFor py out t :=
  h.mem_iff.trans List.mem_flatMap

theorem resolved_iff_saysResolved (h : Answers py out chunk text) (j : Text) :
    j ∈ (parseBkillResolved py text requested).1 ↔ SaysResolved py out chunk requested j := by
  rw [mem_resolved_iff, SaysResolved]
  refine and_congr ⟨?_, ?_⟩ ⟨?_, ?_⟩
  · rintro ⟨r, hr, hres⟩
    obtain ⟨t, ht, hrt⟩ := (mem_responses h r).mp hr
    exact ⟨t, ht, r, hrt, hres⟩
  · rintro ⟨t, ht, r, hrt, hres⟩
    exact ⟨r, (mem_responses h r).mpr ⟨t, ht, hrt⟩, hres⟩
  · exact fun hall t ht r hrt => hall r ((mem_responses h r).mpr ⟨t, ht, hrt⟩)
  · intro hall r hr
    obtain ⟨t, ht, hrt⟩ := (mem_responses h r).mp hr
    exact hall t ht r hrt

theorem accepted_iff_saysAccepted (h : Answers py out chunk text) (j : Text) :
    j ∈ (parseBkillResolved py text requested).2 ↔ SaysAccepted py out chunk requested j := by
  rw [mem_accepted_iff, SaysAccepted]
  constructor
  · rintro ⟨r, hr, hacc⟩
    obtain ⟨t, ht, hrt⟩ := (mem_responses h r).mp hr
    exact ⟨t, ht, r, hrt, hacc⟩
  · rintro ⟨t, ht, r, hrt, hacc⟩
    exact ⟨r, (mem_responses h r).mpr ⟨t, ht, hrt⟩, hacc⟩

/-- The caller's sets are the unions of the chunks' ones. -/
theorem foldlM_merge {answer : List Text → BkillAnswer} (chunks : List (List Text))
    (o : BkillOutcome)
    (h : ∀ c ∈ chunks, ∃ stdout stderr, answer c = .output stdout stderr ∧
      Answers py out c (stdout ++ '\n' :: stderr)) :
    ∃ r, chunks.foldlM (fun o c => o.merge py c (answer c)) o = .ok r ∧
      (∀ j, j ∈ r.resolved ↔ j ∈ o.resolved ∨ ∃ c ∈ chunks, SaysResolved py out c c.toFinset j) ∧
      (∀ j, j ∈ r.accepted ↔ j ∈ o.accepted ∨ ∃ c ∈ chunks, SaysAccepted py out c c.toFinset j) ∧
      r.calls = o.calls + chunks.length ∧ r.timedOut = o.timedOut := by
  induction chunks generalizing o with
  | nil => exact ⟨o, rfl, by simp, by simp, rfl, rfl⟩
  | cons c chunks ih =>
    rw [List.forall_mem_cons] at h
    obtain ⟨⟨stdout, stderr, ha, hanswers⟩, hrest⟩ := h
    set next : BkillOutcome :=
      { o with
        resolved := o.resolved ∪ (parseBkillResolved py (stdout ++ '\n' :: stderr) c.toFinset).1
        accepted := o.accepted ∪ (parseBkillResolved py (stdout ++ '\n' :: stderr) c.toFinset).2
        calls := o.calls + 1 } with hnext
    obtain ⟨r, hr, hres, hacc, hcalls, hlate⟩ := ih next hrest
    have hstep : o.merge py c (answer c) = .ok next := by rw [ha]; rfl
    refine ⟨r, ?_, fun j => ?_, fun j => ?_, ?_, hlate⟩
    · rw [List.foldlM_cons, hstep]
      exact hr
    · rw [hres, hnext, Finset.mem_union, resolved_iff_saysResolved hanswers, or_assoc]
      simp only [List.mem_cons, exists_eq_or_imp]
    · rw [hacc, hnext, Finset.mem_union, accepted_iff_saysAccepted hanswers, or_assoc]
      simp only [List.mem_cons, exists_eq_or_imp]
    · rw [hcalls, hnext, List.length_cons]
      dsimp only
      omega

/-! ## Lines that stay with their target -/

/-- The target denotes the job or the element with this id. -/
def denotes (py : Python) (t jid : Text) : Bool :=
  match classifyTarget py t, classifyTarget py jid with
  | .ok (some sel), .ok (some (.whole pid)) => sel.jobId = pid ∧ sel.selects none = true
  | .ok (some sel), .ok (some (.exact pid i)) => sel.jobId = pid ∧ sel.selects (some i) = true
  | _, _ => false

/-- The target is the bare id of a job. -/
def IsBare (py : Python) (t : Text) (pid : ℕ) : Prop :=
  classifyTarget py t = .ok (some (.whole pid))

/-- What a target denotes belongs to one job. -/
theorem jobId_of_denotes {t jid : Text} (h : denotes py t jid = true) :
    ∃ sel, classifyTarget py t = .ok (some sel) ∧
      (classifyTarget py jid = .ok (some (.whole sel.jobId)) ∨
        ∃ i, classifyTarget py jid = .ok (some (.exact sel.jobId i))) := by
  rw [denotes] at h
  split at h
  · rename_i sel pid hsel hjid
    obtain ⟨rfl, -⟩ := of_decide_eq_true h
    exact ⟨sel, hsel, .inl hjid⟩
  · rename_i sel pid i hsel hjid
    obtain ⟨rfl, -⟩ := of_decide_eq_true h
    exact ⟨sel, hsel, .inr ⟨i, hjid⟩⟩
  · cases h

/-- The ids `_BKILL_LINE_RE` captures. -/
def IsJid (py : Python) (jid : Text) : Prop :=
  ∃ d, d ≠ [] ∧ (∀ c ∈ d, isDecimal py c = true) ∧
    (jid = d ∨ ∃ i, i ≠ [] ∧ (∀ c ∈ i, isDecimal py c = true) ∧ jid = d ++ '[' :: (i ++ [']']))

theorem isJid_of_jobHere {l jid rest : Text} (h : jobHere py l = some (jid, rest)) :
    IsJid py jid := by
  rw [jobHere] at h
  split_ifs at h
  dsimp only at h
  split at h
  · cases h
  · rename_i _ hne
    obtain ⟨rfl, -⟩ := Prod.mk.inj (Option.some.inj h)
    exact ⟨_, hne, fun c hc => List.mem_takeWhile_imp hc, .inl rfl⟩
  · rename_i _ hne
    split at h
    · cases h
    · rename_i _ hne'
      obtain ⟨rfl, -⟩ := Prod.mk.inj (Option.some.inj h)
      exact ⟨_, hne, fun c hc => List.mem_takeWhile_imp hc,
        .inr ⟨_, hne', fun c hc => List.mem_takeWhile_imp hc, by simp⟩⟩
    · cases h
  · cases h

theorem isJid_of_bkillLine : ∀ {l : Text} {r : Response}, bkillLine py l = some r → IsJid py r.jid
  | [], r, h => by cases h
  | c :: l, r, h => by
      rw [bkillLine] at h
      split at h
      · rename_i jid rest hj
        exact Option.some.inj h ▸ isJid_of_jobHere hj
      · exact isJid_of_bkillLine h

theorem isDecimal_ne_bracket (hpy : py.Lawful) {c : Char}
    (h : isDecimal py c = true) : c ≠ '[' := by
  rintro rfl
  rw [isDecimal_symbol hpy (by simp)] at h
  cases h

/-- The classification of a bare id, and of an element, by what their digits convert to. -/
theorem classifyTarget_digits {d : Text} (hne : d ≠ []) (hd : ∀ c ∈ d, isDecimal py c = true) :
    classifyTarget py d = (readDigits py d).map fun pid => some (.whole pid) := by
  have htake : d.takeWhile (isDecimal py) = d := List.takeWhile_eq_self_iff.mpr hd
  have hdrop : d.dropWhile (isDecimal py) = [] := List.dropWhile_eq_nil_iff.mpr hd
  have hm : matchTarget py d = some (.id d) := by
    rw [matchTarget, htake, hdrop]
    exact if_neg hne
  rw [classifyTarget, hm]

theorem classifyTarget_element (hpy : py.Lawful) {d i : Text} (hne : d ≠ [])
    (hd : ∀ c ∈ d, isDecimal py c = true) (hne' : i ≠ []) (hi : ∀ c ∈ i, isDecimal py c = true) :
    classifyTarget py (d ++ '[' :: (i ++ [']'])) = (do
      let pid ← readDigits py d
      let index ← readDigits py i
      .ok (some (.exact pid index))) := by
  obtain ⟨htake, hdrop⟩ := span_decimals ('[' :: (i ++ [']'])) hd
    (by simpa using isDecimal_symbol hpy (c := '[') (by simp))
  obtain ⟨htake', hdrop'⟩ := span_decimals [']'] hi
    (by simpa using isDecimal_symbol hpy (c := ']') (by simp))
  have hm : matchTarget py (d ++ '[' :: (i ++ [']'])) = some (.element d i) := by
    rw [matchTarget, htake, hdrop]
    rw [if_neg hne, matchIndex_bracket (by simp), matchBracket, htake', hdrop']
    simp [atEnd, hne']
  rw [classifyTarget, hm]

/-- A line about an element of a bare target is for a target of the same job. -/
theorem isBare_of_element (hpy : py.Lawful) {t j index : Text} {r : Response}
    (hjid : IsJid py r.jid)
    (hown : denotes py t r.jid = true) (hj : '[' ∉ j) (hr : r.jid = j ++ '[' :: index) :
    ∃ sel, classifyTarget py t = .ok (some sel) ∧ IsBare py j sel.jobId := by
  obtain ⟨sel, hsel, hclass⟩ := jobId_of_denotes hown
  refine ⟨sel, hsel, ?_⟩
  obtain ⟨d, hne, hd, hjd | ⟨i, hne', hi, hjd⟩⟩ := hjid
  · -- an id without an index has no bracket
    have hmem : '[' ∈ d := by rw [← hjd, hr]; simp
    exact absurd rfl (isDecimal_ne_bracket hpy (hd _ hmem))
  · have hnot : '[' ∉ d := fun hmem => isDecimal_ne_bracket hpy (hd _ hmem) rfl
    have hdj : d = j := by
      have h1 := (before_eq_iff.mpr ⟨hnot, _, hjd⟩).2
      rw [← h1]
      exact (before_eq_iff.mpr ⟨hj, _, hr⟩).2
    subst hdj
    have hread : classifyTarget py r.jid = (do
        let pid ← readDigits py d
        let index ← readDigits py i
        .ok (some (.exact pid index))) := by
      rw [hjd]
      exact classifyTarget_element hpy hne hd hne' hi
    rw [IsBare, classifyTarget_digits hne hd]
    rw [hread] at hclass
    cases hdig : readDigits py d with
    | error e => simp [hdig, bind, Except.bind] at hclass
    | ok pid =>
      cases hidx : readDigits py i with
      | error e => simp [hdig, hidx, bind, Except.bind] at hclass
      | ok n =>
        simp only [hdig, hidx, bind, Except.bind, Except.ok.injEq, Option.some.injEq, reduceCtorEq,
          Selector.exact.injEq, false_or] at hclass
        obtain ⟨m, rfl, -⟩ := hclass
        rfl

variable {targets : List Text}

/-- Lines for a target mention only what the target denotes. -/
def OwnLines (py : Python) (out : Text → List Text) (targets : List Text) : Prop :=
  ∀ t ∈ targets, ∀ r ∈ linesFor py out t, denotes py t r.jid = true

instance (py : Python) (out : Text → List Text) (targets : List Text) :
    Decidable (OwnLines py out targets) :=
  inferInstanceAs (Decidable (∀ t ∈ targets, ∀ r ∈ linesFor py out t, denotes py t r.jid = true))

/-- No bare id occurs together with its own elements, nor with itself in another spelling. -/
def BareAlone (py : Python) (targets : List Text) : Prop :=
  ∀ t ∈ targets, ∀ t' ∈ targets, ∀ pid sel, IsBare py t pid →
    classifyTarget py t' = .ok (some sel) →
    sel.jobId = pid → t' = t

/-- What the lines for one target resolve, those for another do not leave unresolved. -/
def Agree (py : Python) (out : Text → List Text) (targets : List Text) : Prop :=
  ∀ t ∈ targets, ∀ t' ∈ targets, ∀ j,
    (∃ r ∈ linesFor py out t, r.jid = j ∧ (r.accepted = true ∨ r.gone = true)) →
    (∀ r ∈ linesFor py out t, r.jid = j → r.accepted = true ∨ r.gone = true) →
    ∀ r ∈ linesFor py out t', r.jid = j → r.accepted = true ∨ r.gone = true

/-- All lines about a bare target are its own. -/
theorem eq_of_about (hpy : py.Lawful) (hown : OwnLines py out targets)
    (hbare : BareAlone py targets)
    {t j : Text} {r : Response} (ht : t ∈ targets) (hr : r ∈ linesFor py out t) (hj : j ∈ targets)
    (habout : r.jid = j ∧ (∃ pid, IsBare py j pid) ∨ '[' ∉ j ∧ ∃ index, r.jid = j ++ '[' :: index) :
    t = j := by
  obtain ⟨_, -, hline⟩ := List.mem_filterMap.mp hr
  rcases habout with ⟨rfl, pid, hpid⟩ | ⟨hnot, index, hjid⟩
  · obtain ⟨sel, hsel, hclass⟩ := jobId_of_denotes (hown t ht r hr)
    rw [IsBare.eq_def] at hpid
    simp only [hpid, Except.ok.injEq, Option.some.injEq, Selector.whole.injEq, reduceCtorEq,
      exists_false, or_false] at hclass
    exact hbare _ hj t ht pid sel hpid hsel hclass.symm
  · obtain ⟨sel, hsel, hpid⟩ := isBare_of_element hpy (isJid_of_bkillLine hline) (hown t ht r hr)
      hnot hjid
    exact hbare j hj t ht _ sel hpid hsel rfl

/-- Whether a line is about `j` does not depend on the chunk its target is in. -/
theorem about_chunk_iff (hpy : py.Lawful) (hown : OwnLines py out targets)
    (hbare : BareAlone py targets) (hsub : ∀ t ∈ chunk, t ∈ targets) {t j : Text} {r : Response}
    (ht : t ∈ chunk) (hr : r ∈ linesFor py out t) :
    About chunk.toFinset j r ↔ About targets.toFinset j r := by
  rw [About, About, List.mem_toFinset, List.mem_toFinset]
  refine or_congr_right ⟨And.imp_left (hsub j), ?_⟩
  rintro ⟨hj, h⟩
  refine ⟨?_, h⟩
  rw [← eq_of_about hpy hown hbare (hsub t ht) hr hj (.inr h)]
  exact ht

/-- Targets agree on whatever lines are about. -/
theorem agree_about (hpy : py.Lawful) (hown : OwnLines py out targets)
    (hbare : BareAlone py targets)
    (hagree : Agree py out targets) {t t' j : Text} (ht : t ∈ targets) (ht' : t' ∈ targets)
    (hsome : ∃ r ∈ linesFor py out t, About targets.toFinset j r ∧
      (r.accepted = true ∨ r.gone = true))
    (hall : ∀ r ∈ linesFor py out t, About targets.toFinset j r → r.accepted = true ∨ r.gone = true)
    {r : Response} (hr : r ∈ linesFor py out t') (habout : About targets.toFinset j r) :
    r.accepted = true ∨ r.gone = true := by
  simp only [About, List.mem_toFinset] at hsome hall habout
  by_cases hj : j ∈ targets ∧ ((∃ pid, IsBare py j pid) ∨ ∃ u ∈ targets, ∃ x ∈ linesFor py out u,
      '[' ∉ j ∧ ∃ index, x.jid = j ++ '[' :: index)
  · obtain ⟨hj, hkind⟩ := hj
    obtain ⟨pid, hpid⟩ : ∃ pid, IsBare py j pid := by
      rcases hkind with h | ⟨u, hu, x, hx, hnot, index, hjid⟩
      · exact h
      · obtain ⟨_, -, hline⟩ := List.mem_filterMap.mp hx
        obtain ⟨sel, -, h⟩ := isBare_of_element hpy (isJid_of_bkillLine hline) (hown u hu x hx) hnot
          hjid
        exact ⟨_, h⟩
    -- both have their lines from `j` itself
    have hsource {u : Text} {x : Response} (hu : u ∈ targets) (hx : x ∈ linesFor py out u)
        (h : x.jid = j ∨ j ∈ targets ∧ '[' ∉ j ∧ ∃ index, x.jid = j ++ '[' :: index) : u = j := by
      refine eq_of_about hpy hown hbare hu hx hj ?_
      rcases h with h | ⟨-, h⟩
      · exact .inl ⟨h, pid, hpid⟩
      · exact .inr h
    obtain ⟨x, hx, hxa, -⟩ := hsome
    obtain rfl := hsource ht hx hxa
    obtain rfl := hsource ht' hr habout
    exact hall r hr habout
  · -- only a line of its own is about `j`
    have hdirect {u : Text} {x : Response} (hu : u ∈ targets) (hx : x ∈ linesFor py out u)
        (h : x.jid = j ∨ j ∈ targets ∧ '[' ∉ j ∧ ∃ index, x.jid = j ++ '[' :: index) :
            x.jid = j := by
      rcases h with h | ⟨hmem, h⟩
      · exact h
      · exact absurd ⟨hmem, .inr ⟨u, hu, x, hx, h⟩⟩ hj
    obtain ⟨x, hx, hxa, hgood⟩ := hsome
    exact hagree t ht t' ht' j ⟨x, hx, hdirect ht hx hxa, hgood⟩
      (fun y hy hyj => hall y hy (.inl hyj)) r hr (hdirect ht' hr habout)

/-- What the chunks resolve is what the targets resolve together. -/
theorem saysResolved_flatten (hpy : py.Lawful) (hown : OwnLines py out targets)
    (hbare : BareAlone py targets) (hagree : Agree py out targets) {chunks : List (List Text)}
    (hflat : ∀ t, t ∈ targets ↔ ∃ c ∈ chunks, t ∈ c) (j : Text) :
    (∃ c ∈ chunks, SaysResolved py out c c.toFinset j) ↔
      SaysResolved py out targets targets.toFinset j := by
  have hsub {c : List Text} (hc : c ∈ chunks) : ∀ t ∈ c, t ∈ targets := fun t ht =>
    (hflat t).mpr ⟨c, hc, ht⟩
  constructor
  · rintro ⟨c, hc, ⟨t, ht, r, hr, habout, hgood⟩, hall⟩
    have hall' : ∀ r ∈ linesFor py out t, About targets.toFinset j r →
        r.accepted = true ∨ r.gone = true := fun r hr h =>
      hall t ht r hr ((about_chunk_iff hpy hown hbare (hsub hc) ht hr).mpr h)
    have habout' := (about_chunk_iff hpy hown hbare (hsub hc) ht hr).mp habout
    exact ⟨⟨t, hsub hc t ht, r, hr, habout', hgood⟩, fun t' ht' r' hr' h =>
      agree_about hpy hown hbare hagree (hsub hc t ht) ht' ⟨r, hr, habout', hgood⟩ hall' hr' h⟩
  · rintro ⟨⟨t, ht, r, hr, habout, hgood⟩, hall⟩
    obtain ⟨c, hc, htc⟩ := (hflat t).mp ht
    refine ⟨c, hc, ⟨t, htc, r, hr, ?_, hgood⟩, fun t' ht' r' hr' h => ?_⟩
    · exact (about_chunk_iff hpy hown hbare (hsub hc) htc hr).mpr habout
    · exact hall t' (hsub hc t' ht') r' hr'
        ((about_chunk_iff hpy hown hbare (hsub hc) ht' hr').mp h)

theorem saysAccepted_flatten (hpy : py.Lawful) (hown : OwnLines py out targets)
    (hbare : BareAlone py targets) {chunks : List (List Text)}
    (hflat : ∀ t, t ∈ targets ↔ ∃ c ∈ chunks, t ∈ c) (j : Text) :
    (∃ c ∈ chunks, SaysAccepted py out c c.toFinset j) ↔
      SaysAccepted py out targets targets.toFinset j := by
  have hsub {c : List Text} (hc : c ∈ chunks) : ∀ t ∈ c, t ∈ targets := fun t ht =>
    (hflat t).mpr ⟨c, hc, ht⟩
  constructor
  · rintro ⟨c, hc, t, ht, r, hr, habout, hacc⟩
    exact ⟨t, hsub hc t ht, r, hr, (about_chunk_iff hpy hown hbare (hsub hc) ht hr).mp habout, hacc⟩
  · rintro ⟨t, ht, r, hr, habout, hacc⟩
    obtain ⟨c, hc, htc⟩ := (hflat t).mp ht
    exact ⟨c, hc, t, htc, r, hr, (about_chunk_iff hpy hown hbare (hsub hc) htc hr).mpr habout, hacc⟩

/-- The chunks hold the targets, whatever order they complete in. -/
theorem mem_chunks_iff {cfg : Config} {workers : ℕ} {order : List (List Text) → List (List Text)}
    (horder : ∀ cs, Completes workers [] cs (order cs))
    (hfits : ∀ t ∈ targets, Fits cfg.argMax cfg.bkillBaseLen t) (t : Text) :
    t ∈ targets ↔ ∃ c ∈ order (cfg.bkillChunks targets).chunks, t ∈ c := by
  have hflat : (cfg.bkillChunks targets).chunks.flatten = targets := flatten_chunkArgs hfits
  conv_lhs => rw [← hflat]
  rw [List.mem_flatten]
  have hperm := (horder (cfg.bkillChunks targets).chunks).perm
  rw [List.nil_append] at hperm
  simp only [hperm.mem_iff]

/-- **Chunks and workers do not change the verdict.**  If the lines about jobs that `bkill` prints
for some targets are those for each of them, if these mention only what the target denotes, if no
bare id occurs together with its elements, and if no id is resolved by the lines for one target and
left unresolved by a line for another, then all settings of the chunk size, the length of a command
line and the number of workers, and all orders of completion, give the sets that the whole output
gives when all targets are requested. -/
theorem bkill_chunking (hpy : py.Lawful) (out : Text → List Text) (targets : List Text)
    (hown : OwnLines py out targets) (hbare : BareAlone py targets)
    (hagree : Agree py out targets) :
    ∃ resolved accepted,
      (∀ text, Answers py out targets text →
        parseBkillResolved py text targets.toFinset = (resolved, accepted)) ∧
      ∀ (cfg : Config) (workers : ℕ) (order : List (List Text) → List (List Text))
        (answer : List Text → BkillAnswer), (∀ cs, Completes workers [] cs (order cs)) →
        (∀ t ∈ targets, Fits cfg.argMax cfg.bkillBaseLen t) →
        (∀ c ∈ (cfg.bkillChunks targets).chunks, ∃ stdout stderr, answer c = .output stdout stderr ∧
          Answers py out c (stdout ++ '\n' :: stderr)) →
        ∃ r, bkillTargetsConfirm py cfg order answer targets = .ok r ∧ r.resolved = resolved ∧
          r.accepted = accepted ∧ r.calls = (cfg.bkillChunks targets).chunks.length ∧
          r.timedOut = ∅ := by
  set b := (targets.flatMap (linesFor py out)).foldl (Buckets.absorb targets.toFinset) {} with hb
  have hbuckets (j : Text) :=
    mem_foldl_absorb targets.toFinset j (targets.flatMap (linesFor py out)) {}
  simp only [← hb, Finset.notMem_empty, false_or, List.mem_flatMap] at hbuckets
  have hres (j : Text) : j ∈ b.resolved \ b.unresolved ↔
      SaysResolved py out targets targets.toFinset j := by
    rw [Finset.mem_sdiff, (hbuckets j).1, (hbuckets j).2.2, SaysResolved]
    grind [not_other_iff]
  have hacc (j : Text) : j ∈ b.accepted ↔ SaysAccepted py out targets targets.toFinset j := by
    rw [(hbuckets j).2.1, SaysAccepted]
    grind
  refine ⟨b.resolved \ b.unresolved, b.accepted, fun text htext => Prod.ext ?_ ?_, ?_⟩
  · ext j
    rw [resolved_iff_saysResolved htext, hres]
  · ext j
    rw [accepted_iff_saysAccepted htext, hacc]
  · intro cfg workers order answer horder hfits hanswer
    have hperm := (horder (cfg.bkillChunks targets).chunks).perm
    rw [List.nil_append] at hperm
    have hflat := mem_chunks_iff horder hfits
    obtain ⟨r, hr, hresolved, haccepted, hcalls, hlate⟩ := foldlM_merge
      (order (cfg.bkillChunks targets).chunks) {} fun c hc => hanswer c (hperm.mem_iff.mp hc)
    refine ⟨r, ?_, ?_, ?_, ?_, hlate⟩
    · rw [bkillTargetsConfirm]
      have hraised : (cfg.bkillChunks targets).raised = none :=
        raised_chunkArgs_eq_none_iff.mpr hfits
      rw [hraised]
      exact hr
    · ext j
      rw [hresolved, hres, saysResolved_flatten hpy hown hbare hagree hflat]
      simp
    · ext j
      rw [haccepted, hacc, saysAccepted_flatten hpy hown hbare hflat]
      simp
    · rw [hcalls, hperm.length_eq]
      simp

end

/-- What `bkill` prints for a chunk: the lines for its targets. -/
def printed (out : Text → List Text) (chunk : List Text) : Text :=
  chunk.flatMap fun t => (out t).flatMap (· ++ ['\n'])

/-- A job and an element, in two chunks. -/
theorem bkill_chunking_two :
    let out : Text → List Text := fun t =>
      if t = "7".toList then ["Job <7> is being terminated".toList]
      else ["Job <8[2]>: No matching job found".toList]
    let targets := ["7".toList, "8[2]".toList]
    ∃ r, bkillTargetsConfirm Python.ascii { killChunkSize := 1 } id
        (fun c => .output (printed out c) []) targets = .ok r ∧
      r.resolved = {"7".toList, "8[2]".toList} ∧ r.accepted = {"7".toList} := by
  intro out targets
  have hgood : ∀ t ∈ targets, ∀ r ∈ linesFor Python.ascii out t,
      r.accepted = true ∨ r.gone = true := by decide +kernel
  have h7 : classifyTarget Python.ascii "7".toList = .ok (some (.whole 7)) := by decide
  have h8 : classifyTarget Python.ascii "8[2]".toList = .ok (some (.exact 8 2)) := by decide
  have hbare : BareAlone Python.ascii targets := by
    intro t ht t' ht' pid sel hb hs hpid
    simp only [targets, List.mem_cons, List.not_mem_nil, or_false] at ht ht'
    rw [IsBare.eq_def] at hb
    rcases ht with rfl | rfl <;> rcases ht' with rfl | rfl
    · rfl
    · cases h7.symm.trans hb
      cases h8.symm.trans hs
      cases hpid
    · cases h8.symm.trans hb
    · rfl
  have hchunkList : ({ killChunkSize := 1 } : Config).bkillChunks targets =
      ⟨[["7".toList], ["8[2]".toList]], none⟩ := by rfl
  have hanswers : ∀ c ∈ [["7".toList], ["8[2]".toList]],
      Answers Python.ascii out c (printed out c ++ '\n' :: []) := by decide +kernel
  obtain ⟨resolved, accepted, hwhole, hchunks⟩ := bkill_chunking Python.ascii_lawful out targets
    (by decide +kernel) hbare fun _ _ t' ht' _ _ _ r hr _ => hgood t' ht' r hr
  obtain ⟨r, hr, hres, hacc, -⟩ := hchunks { killChunkSize := 1 } 1 id
    (fun c => .output (printed out c) []) completes_serial (by decide +kernel) fun c hc =>
      ⟨_, _, rfl, hanswers c (by rwa [hchunkList] at hc)⟩
  have hall := hwhole (printed out targets) (by decide +kernel)
  have hvalue : parseBkillResolved Python.ascii (printed out targets) targets.toFinset =
      ({"7".toList, "8[2]".toList}, {"7".toList}) := by decide +kernel
  obtain ⟨rfl, rfl⟩ := Prod.mk.inj (hall.symm.trans hvalue)
  exact ⟨r, hr, hres, hacc⟩

/-- An element that is a target itself, and in a range: in chunks of their own its signal was
accepted, in one chunk it stays unresolved.  And two spellings of one id. -/
theorem not_bkill_chunking :
    (let out : Text → List Text := fun t =>
        if t = "7[1]".toList then ["Job <7[1]> is being terminated".toList]
        else ["Job <7[1]>: Failed in sending a signal to the job".toList]
      let targets := ["7[1]".toList, "7[1-3]".toList]
      targets.Nodup ∧ OwnLines Python.ascii out targets ∧ (∀ t ∈ targets, '[' ∈ t) ∧
        (bkillTargetsConfirm Python.ascii { killChunkSize := 1 } id
            (fun c => .output (printed out c) []) targets).toOption.map (·.resolved) ≠
          (bkillTargetsConfirm Python.ascii { killChunkSize := 2 } id
            (fun c => .output (printed out c) []) targets).toOption.map (·.resolved)) ∧
    (let out : Text → List Text := fun t =>
        if t = "7".toList then [] else ["Job <7[1]> is being terminated".toList]
      let targets := ["7".toList, "007".toList]
      targets.Nodup ∧ OwnLines Python.ascii out targets ∧ (∀ t ∈ targets, '[' ∉ t) ∧
        (bkillTargetsConfirm Python.ascii { killChunkSize := 1 } id
            (fun c => .output (printed out c) []) targets).toOption.map (·.resolved) ≠
          (bkillTargetsConfirm Python.ascii { killChunkSize := 2 } id
            (fun c => .output (printed out c) []) targets).toOption.map (·.resolved)) := by
  refine ⟨⟨by decide, by decide +kernel, by decide, by decide +kernel⟩,
    ⟨by decide, by decide +kernel, by decide, by decide +kernel⟩⟩

end Lsfmgr.Kill
