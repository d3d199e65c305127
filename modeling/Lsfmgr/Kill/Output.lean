import Mathlib
import Lsfmgr.Machinery.Text

/-!
# Kill/Output — `_parse_bkill_resolved`, what `bkill` says of each target

A line about a job puts its id into one of three sets by its message; a line about an element puts
its parent there, too, if the parent was asked for.  What some line leaves unresolved is not
resolved, whatever the other lines say.
-/

namespace Lsfmgr.Kill

open Machinery

abbrev Text := List Char

/-- `_BKILL_ACCEPTED_MSGS` -/
def bkillAcceptedMsgs : List Text :=
  ["is being terminated", "is being signaled", "is being requeued", "is being killed",
    "in progress of being terminated"].map String.toList

/-- `_BKILL_GONE_MSGS` -/
def bkillGoneMsgs : List Text :=
  ["already finished", "has already", "no matching job", "is not found", "no unfinished job",
    "not found"].map String.toList

/-- What `_BKILL_LINE_RE` captures of a line. -/
structure Response where
  jid : Text
  /-- In lower case. -/
  msg : Text
  deriving DecidableEq

namespace Response

/-- The signal was accepted. -/
def accepted (r : Response) : Bool := bkillAcceptedMsgs.any (isIn · r.msg)

/-- The job is gone already. -/
def gone (r : Response) : Bool := bkillGoneMsgs.any (isIn · r.msg)

/-- The ids the line counts for: its own, and that of its parent if it is requested. -/
def ids (requested : Finset Text) (r : Response) : Finset Text :=
  let parent := before '[' r.jid
  if '[' ∈ r.jid ∧ parent ∈ requested then {r.jid, parent} else {r.jid}

end Response

section

variable (py : Python)

/-- `\d` -/
def isDecimal (c : Char) : Bool := (py.decimal? c).isSome

/-- `Job <(\d+(?:\[\d+\])?)>` at this place: the id, and what follows. -/
def jobHere (l : Text) : Option (Text × Text) :=
  if "Job <".toList <+: l then
    let l := l.drop 5
    let id := l.takeWhile (isDecimal py)
    match id, l.dropWhile (isDecimal py) with
    | [], _ => none
    | _, '>' :: rest => some (id, rest)
    | _, '[' :: rest =>
      let index := rest.takeWhile (isDecimal py)
      match index, rest.dropWhile (isDecimal py) with
      | [], _ => none
      | _, ']' :: '>' :: rest => some (id ++ '[' :: index ++ [']'], rest)
      | _, _ => none
    | _, _ => none
  else none

/-- `[:\s]?\s*(.*)` -/
def messageOf (l : Text) : Text :=
  let l := match l with
    | c :: rest => if c = ':' ∨ py.isSpace c then rest else l
    | [] => []
  (l.dropWhile py.isSpace).takeWhile (· ≠ '\n')

/-- `_BKILL_LINE_RE.search` -/
def bkillLine : Text → Option Response
  | [] => none
  | c :: l =>
    match jobHere py (c :: l) with
    | some (jid, rest) => some ⟨jid, py.lower (messageOf py rest)⟩
    | none => bkillLine l

/-- The lines about jobs. -/
def responses (text : Text) : List Response := (splitlines text).filterMap (bkillLine py)

end

/-- The sets `_parse_bkill_resolved` fills. -/
structure Buckets where
  resolved : Finset Text := ∅
  accepted : Finset Text := ∅
  unresolved : Finset Text := ∅

/-- A line goes into the buckets of its message. -/
def Buckets.absorb (requested : Finset Text) (b : Buckets) (r : Response) : Buckets :=
  let ids := r.ids requested
  if r.accepted then { b with resolved := b.resolved ∪ ids, accepted := b.accepted ∪ ids }
  else if r.gone then { b with resolved := b.resolved ∪ ids }
  else { b with unresolved := b.unresolved ∪ ids }

/-- `_parse_bkill_resolved`: the resolved targets, and those with an accepted signal. -/
def parseBkillResolved (py : Python) (text : Text) (requested : Finset Text) :
    Finset Text × Finset Text :=
  let b := (responses py text).foldl (Buckets.absorb requested) {}
  (b.resolved \ b.unresolved, b.accepted)

/-! ## What the sets mean -/

/-- The line is about the target: it is the job's own, or that of an element of a requested
parent. -/
def About (requested : Finset Text) (t : Text) (r : Response) : Prop :=
  r.jid = t ∨ (t ∈ requested ∧ '[' ∉ t ∧ ∃ index, r.jid = t ++ '[' :: index)

/-- The message is neither that the signal was accepted nor that the job is gone. -/
def Response.Other (r : Response) : Prop := r.accepted = false ∧ r.gone = false

/-- The parent of an id that has one. -/
theorem before_eq_iff {l t : Text} :
    ('[' ∈ l ∧ before '[' l = t) ↔ '[' ∉ t ∧ ∃ index, l = t ++ '[' :: index := by
  constructor
  · rintro ⟨hmem, rfl⟩
    refine ⟨fun h => ?_, (l.dropWhile (· ≠ '[')).tail, ?_⟩
    · simpa using List.mem_takeWhile_imp h
    · have hne : l.dropWhile (· ≠ '[') ≠ [] := fun hnil => by
        have := List.dropWhile_eq_nil_iff.mp hnil '[' hmem
        simp at this
      have hhead : (l.dropWhile (· ≠ '[')).head hne = '[' := by
        have := List.head_dropWhile_not (· ≠ '[') hne
        simpa using this
      have hcons : l.dropWhile (· ≠ '[') = '[' :: (l.dropWhile (· ≠ '[')).tail := by
        conv_lhs => rw [← List.cons_head_tail hne, hhead]
      rw [← hcons, before, List.takeWhile_append_dropWhile]
  · rintro ⟨hnot, index, rfl⟩
    refine ⟨by simp, ?_⟩
    rw [before, List.takeWhile_append_of_pos fun c hc => ?_, List.takeWhile_cons_of_neg (by simp),
      List.append_nil]
    simp only [ne_eq, decide_not, Bool.not_eq_true', decide_eq_false_iff_not]
    exact fun heq => hnot (heq ▸ hc)

theorem mem_ids_iff {requested : Finset Text} {t : Text} {r : Response} :
    t ∈ r.ids requested ↔ About requested t r := by
  have hparent : About requested t r ↔
      r.jid = t ∨ (t ∈ requested ∧ '[' ∈ r.jid ∧ before '[' r.jid = t) := by
    rw [before_eq_iff, About]
  rw [hparent, Response.ids]
  split_ifs with h
  · simp only [Finset.mem_insert, Finset.mem_singleton]
    constructor
    · rintro (rfl | rfl)
      · exact .inl rfl
      · exact .inr ⟨h.2, h.1, rfl⟩
    · rintro (rfl | ⟨-, -, rfl⟩)
      · exact .inl rfl
      · exact .inr rfl
  · simp only [Finset.mem_singleton]
    constructor
    · rintro rfl
      exact .inl rfl
    · rintro (rfl | ⟨hreq, hmem, rfl⟩)
      · rfl
      · exact absurd ⟨hmem, hreq⟩ h

/-- What one line adds. -/
theorem mem_absorb (requested : Finset Text) (t : Text) (b : Buckets) (r : Response) :
    (t ∈ (b.absorb requested r).resolved ↔ t ∈ b.resolved ∨ (About requested t r ∧ ¬ r.Other)) ∧
    (t ∈ (b.absorb requested r).accepted ↔
      t ∈ b.accepted ∨ (About requested t r ∧ r.accepted = true)) ∧
    (t ∈ (b.absorb requested r).unresolved ↔ t ∈ b.unresolved ∨
      (About requested t r ∧ r.Other)) := by
  simp only [Buckets.absorb, Response.Other]
  cases ha : r.accepted <;> cases hg : r.gone <;> simp [mem_ids_iff]

/-- What is in the buckets after some lines. -/
theorem mem_foldl_absorb (requested : Finset Text) (t : Text) :
    ∀ (rs : List Response) (b : Buckets), (t ∈ (rs.foldl (Buckets.absorb requested) b).resolved ↔
      t ∈ b.resolved ∨ ∃ r ∈ rs, About requested t r ∧ ¬ r.Other) ∧
    (t ∈ (rs.foldl (Buckets.absorb requested) b).accepted ↔
      t ∈ b.accepted ∨ ∃ r ∈ rs, About requested t r ∧ r.accepted = true) ∧
    (t ∈ (rs.foldl (Buckets.absorb requested) b).unresolved ↔
      t ∈ b.unresolved ∨ ∃ r ∈ rs, About requested t r ∧ r.Other)
  | [], b => by simp
  | r :: rs, b => by
      obtain ⟨hres, hacc, hun⟩ := mem_foldl_absorb requested t rs (b.absorb requested r)
      obtain ⟨hres₁, hacc₁, hun₁⟩ := mem_absorb requested t b r
      rw [List.foldl_cons]
      exact ⟨by simp only [hres, hres₁, List.mem_cons, exists_eq_or_imp, or_assoc],
        by simp only [hacc, hacc₁, List.mem_cons, exists_eq_or_imp, or_assoc],
        by simp only [hun, hun₁, List.mem_cons, exists_eq_or_imp, or_assoc]⟩

theorem not_other_iff {r : Response} : ¬ r.Other ↔ r.accepted = true ∨ r.gone = true := by
  rw [Response.Other, not_and_or, Bool.not_eq_false, Bool.not_eq_false]

theorem mem_resolved_iff {py : Python} {text : Text} {requested : Finset Text} {t : Text} :
    t ∈ (parseBkillResolved py text requested).1 ↔
      (∃ r ∈ responses py text, About requested t r ∧ (r.accepted = true ∨ r.gone = true)) ∧
        ∀ r ∈ responses py text, About requested t r → r.accepted = true ∨ r.gone = true := by
  obtain ⟨h1, -, h3⟩ := mem_foldl_absorb requested t (responses py text) {}
  simp only [parseBkillResolved, Finset.mem_sdiff, h1, h3, Finset.notMem_empty, false_or,
    not_other_iff, not_exists, not_and]

theorem mem_accepted_iff {py : Python} {text : Text} {requested : Finset Text} {t : Text} :
    t ∈ (parseBkillResolved py text requested).2 ↔
      ∃ r ∈ responses py text, About requested t r ∧ r.accepted = true := by
  obtain ⟨-, h2, -⟩ := mem_foldl_absorb requested t (responses py text) {}
  simp only [parseBkillResolved, h2, Finset.notMem_empty, false_or]

/-- **The meaning of `bkill`'s output.**  A target is resolved if and only if some line about it
says that the signal was accepted or that the job is gone and no line about it says anything else;
it has an accepted signal if and only if some line about it says so.  The order of the lines does
not matter. -/
theorem parseBkillResolved_meaning (py : Python) (text : Text) (requested : Finset Text) :
    (∀ t, t ∈ (parseBkillResolved py text requested).1 ↔
      (∃ r ∈ responses py text, About requested t r ∧ (r.accepted = true ∨ r.gone = true)) ∧
        ∀ r ∈ responses py text, About requested t r → r.accepted = true ∨ r.gone = true) ∧
    (∀ t, t ∈ (parseBkillResolved py text requested).2 ↔
      ∃ r ∈ responses py text, About requested t r ∧ r.accepted = true) ∧
    ∀ text', (splitlines text').Perm (splitlines text) →
      parseBkillResolved py text' requested = parseBkillResolved py text requested := by
  refine ⟨fun t => mem_resolved_iff, fun t => mem_accepted_iff, fun text' hperm => ?_⟩
  have hmem (r : Response) : r ∈ responses py text' ↔ r ∈ responses py text :=
    (hperm.filterMap (bkillLine py)).mem_iff
  refine Prod.ext ?_ ?_
  · ext t
    simp only [mem_resolved_iff, hmem]
  · ext t
    simp only [mem_accepted_iff, hmem]

end Lsfmgr.Kill
