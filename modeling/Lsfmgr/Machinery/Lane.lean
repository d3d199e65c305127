import Mathlib

/-!
# Machinery/Lane — transitions that wait until the one on show has stood long enough

A lane is one row of a display: the state on show with the time it came up, and the records whose
turn has not come.  A record is **offered** to the lane and either shown at once or queued; the head
of the queue is **taken** once the state on show has stood for `wait`.  With what was offered and
what was shown as two logs, `Lane.Kept` says that no record is lost or made up, and `Lane.Paced`
that the states shown are the states offered, and that their runs begin at least `wait` apart.
-/

namespace Machinery

/-! ## Runs of equal elements -/

section Runs

open List

variable {α β : Type*}

theorem destutter'_concat (R : α → α → Prop) [DecidableRel R] (x : α) : ∀ (l : List α) (a : α),
    (l ++ [x]).destutter' R a = if R ((l.destutter' R a).getLast (destutter'_ne_nil l R)) x
      then l.destutter' R a ++ [x] else l.destutter' R a
  | [], a => by
      rw [List.nil_append, destutter'_singleton]
      rfl
  | b :: l, a => by
      by_cases h : R a b
      · have ih := destutter'_concat R x l b
        simp only [List.cons_append, destutter'_cons_pos _ h, ih,
          List.getLast_cons (destutter'_ne_nil l R)]
        split <;> rfl
      · have ih := destutter'_concat R x l a
        simp only [List.cons_append, destutter'_cons_neg _ h, ih]

variable [DecidableEq β] (f : α → β)

/-- The elements that begin a run of elements with one value of `f`. -/
def runs (l : List α) : List α := l.destutter fun a b => f a ≠ f b

@[simp] theorem runs_nil : runs f [] = [] := rfl

private theorem runs_concat_iff (l : List α) (x : α) :
    ((runs f l).getLast?.map f = some (f x) → runs f (l ++ [x]) = runs f l) ∧
      ((runs f l).getLast?.map f ≠ some (f x) → runs f (l ++ [x]) = runs f l ++ [x]) := by
  obtain - | ⟨a, l⟩ := l
  · simp [runs]
  · simp only [runs, List.cons_append, destutter_cons', destutter'_concat,
      List.getLast?_eq_some_getLast (destutter'_ne_nil l _), Option.map_some, ne_eq,
      Option.some.injEq]
    exact ⟨fun h => if_neg (not_not.mpr h), fun h => if_pos h⟩

/-- The last element and the beginning of its run have one value. -/
theorem getLast?_runs (l : List α) : (runs f l).getLast?.map f = l.getLast?.map f := by
  induction l using List.reverseRecOn with
  | nil => rfl
  | append_singleton l x _ =>
    by_cases h : (runs f l).getLast?.map f = some (f x)
    · rw [(runs_concat_iff f l x).1 h, h, List.getLast?_concat, Option.map_some]
    · rw [(runs_concat_iff f l x).2 h, List.getLast?_concat, List.getLast?_concat]

variable {f}

/-- A new element goes on with the run of the last one… -/
theorem runs_concat_of_eq {l : List α} {x : α} (h : l.getLast?.map f = some (f x)) :
    runs f (l ++ [x]) = runs f l :=
  (runs_concat_iff f l x).1 (getLast?_runs f l ▸ h)

/-- …or begins one. -/
theorem runs_concat_of_ne {l : List α} {x : α} (h : l.getLast?.map f ≠ some (f x)) :
    runs f (l ++ [x]) = runs f l ++ [x] :=
  (runs_concat_iff f l x).2 (getLast?_runs f l ▸ h)

theorem destutter_concat_of_eq {l : List β} {x : β} (h : l.getLast? = some x) :
    (l ++ [x]).destutter (· ≠ ·) = l.destutter (· ≠ ·) :=
  runs_concat_of_eq (f := id) (by simpa using h)

theorem destutter_concat_of_ne {l : List β} {x : β} (h : l.getLast? ≠ some x) :
    (l ++ [x]).destutter (· ≠ ·) = l.destutter (· ≠ ·) ++ [x] :=
  runs_concat_of_ne (f := id) (by simpa using h)

/-- Appending one element keeps an equality of runs, when the last elements agree. -/
theorem destutter_concat_congr {l m : List β} (h : l.destutter (· ≠ ·) = m.destutter (· ≠ ·))
    (hl : l.getLast? = m.getLast?) (x : β) :
    (l ++ [x]).destutter (· ≠ ·) = (m ++ [x]).destutter (· ≠ ·) := by
  by_cases hx : l.getLast? = some x
  · rw [destutter_concat_of_eq hx, destutter_concat_of_eq (hl ▸ hx), h]
  · rw [destutter_concat_of_ne hx, destutter_concat_of_ne (hl ▸ hx), h]

end Runs

/-! ## One row of the display -/

/-- What is on show and since when, and what waits; `none` where there is neither. -/
structure Lane (σ ρ τ : Type*) where
  shown : Option (σ × τ) := none
  queue : Option (List ρ) := none

namespace Lane

variable {σ ρ τ : Type*}

def waiting (l : Lane σ ρ τ) : List ρ := l.queue.getD []

/-- What was shown and what waits are records that were offered, in their order and up to the
last. -/
structure Kept (l : Lane σ ρ τ) (offered shown : List ρ) : Prop where
  sublist : (shown ++ l.waiting).Sublist offered
  last : (shown ++ l.waiting).getLast? = offered.getLast?
  queue_ne : l.queue ≠ some []

theorem kept_empty : ({} : Lane σ ρ τ).Kept [] [] := ⟨by simp [waiting], by simp [waiting], by simp⟩

section Turns

variable [Field τ] [LinearOrder τ] (stateOf : ρ → σ) (wait now : τ)

/-- Whether the state on show has to stand for longer. -/
def young (l : Lane σ ρ τ) : Bool :=
  match l.shown with
  | some (_, t) => now - t < wait
  | none => false

/-- The queue's turn to show its head, or its last record when all of it is to be **flushed**. -/
def turn (flush : Bool) (l : Lane σ ρ τ) : Lane σ ρ τ × Option ρ :=
  match l.queue with
  | some (r :: rest) =>
    if !flush && l.young wait now then (l, none)
    else
      let next := if flush then (r :: rest).getLast (List.cons_ne_nil r rest) else r
      ({ shown := some (stateOf next, now)
         queue := if flush || rest.isEmpty then none else some rest }, some next)
  | _ => (l, none)

/-- The state on show is forgotten if it has stood and nothing waits. -/
def hide (dwell : τ) (l : Lane σ ρ τ) : Lane σ ρ τ :=
  match l.shown, l.queue with
  | some (_, t), none => if dwell < now - t then { l with shown := none } else l
  | _, _ => l

variable {stateOf wait now}

variable (stateOf wait now) in
/-- What a turn does: nothing, or the next record is shown and the queue goes on behind it. -/
theorem turn_cases (flush : Bool) (l : Lane σ ρ τ) :
    turn stateOf wait now flush l = (l, none) ∨
    ∃ r rest, l.queue = some (r :: rest) ∧ (flush = false → l.young wait now = false) ∧
      ∃ next, next = (if flush then (r :: rest).getLast (List.cons_ne_nil r rest) else r) ∧
        turn stateOf wait now flush l =
          ({ shown := some (stateOf next, now)
             queue := if flush || rest.isEmpty then none else some rest }, some next) := by
  obtain ⟨shown, queue⟩ := l
  obtain - | - | ⟨r, rest⟩ := queue
  · exact .inl rfl
  · exact .inl rfl
  · by_cases hy : (!flush && (⟨shown, some (r :: rest)⟩ : Lane σ ρ τ).young wait now) = true
    · exact .inl (by simp only [turn, hy, if_true])
    · refine .inr ⟨r, rest, rfl, fun hf => ?_, _, rfl, by simp only [turn, hy]; rfl⟩
      simpa [hf] using hy

/-- What has its turn was waiting, and nothing comes to wait. -/
theorem mem_of_turn {flush : Bool} {l : Lane σ ρ τ} {x : ρ}
    (hx : x ∈ (turn stateOf wait now flush l).1.waiting ∨
      (turn stateOf wait now flush l).2 = some x) :
    x ∈ l.waiting := by
  obtain he | ⟨r, rest, hq, -, next, hn, he⟩ :=
    turn_cases stateOf wait now flush l <;> rw [he] at hx
  · simpa using hx
  · have hwait : l.waiting = r :: rest := by rw [waiting, hq, Option.getD_some]
    rw [hwait]
    obtain hx | hx := hx
    · refine List.mem_cons_of_mem r ?_
      by_cases hr : (flush || rest.isEmpty) = true <;> simp_all [waiting]
    · obtain rfl : next = x := by simpa using hx
      obtain - | - := flush
      · simp [hn]
      · exact hn ▸ List.getLast_mem (List.cons_ne_nil r rest)

/-- A flush leaves no queue. -/
theorem queue_turn_flush {l : Lane σ ρ τ} (hl : l.queue ≠ some []) :
    (turn stateOf wait now true l).1.queue = none := by
  obtain ⟨shown, - | - | ⟨r, rest⟩⟩ := l
  · rfl
  · exact absurd rfl hl
  · rfl

theorem turn_of_queue_eq_none {flush : Bool} {l : Lane σ ρ τ} (hl : l.queue = none) :
    turn stateOf wait now flush l = (l, none) := by
  simp [turn, hl]

theorem Kept.turn {l : Lane σ ρ τ} {offered shown : List ρ} (h : l.Kept offered shown)
    (flush : Bool) : (turn stateOf wait now flush l).1.Kept offered
      (shown ++ (turn stateOf wait now flush l).2.toList) := by
  obtain he | ⟨r, rest, hq, -, next, hn, he⟩ := turn_cases stateOf wait now flush l <;> rw [he]
  · simpa using h
  · have hs := h.sublist
    have hl := h.last
    simp only [waiting, hq, Option.getD_some] at hs hl
    obtain - | - := flush
    · obtain rfl : next = r := by simpa using hn
      refine ⟨?_, ?_, ?_⟩
      · cases rest <;> simpa [waiting] using hs
      · rw [← hl]
        cases rest <;> simp [waiting]
      · cases rest <;> simp
    · have hlast : (r :: rest).getLast? = some next := by
        rw [hn, if_pos rfl, List.getLast?_eq_some_getLast]
      have hmem : next ∈ r :: rest := List.mem_of_getLast? hlast
      refine ⟨?_, ?_, by simp⟩
      · simpa [waiting] using ((List.singleton_sublist.mpr hmem).append_left shown).trans hs
      · have he : (shown ++ r :: rest).getLast? = some next := by
          rw [List.getLast?_append, hlast, Option.some_or]
        rw [← hl, he]
        simp [waiting]

theorem waiting_hide (now dwell : τ) (l : Lane σ ρ τ) : (hide now dwell l).waiting = l.waiting := by
  obtain ⟨- | ⟨s, t⟩, - | q⟩ := l <;> simp only [hide]
  split <;> rfl

theorem queue_hide (now dwell : τ) (l : Lane σ ρ τ) : (hide now dwell l).queue = l.queue := by
  obtain ⟨- | ⟨s, t⟩, - | q⟩ := l <;> simp only [hide]
  split <;> rfl

theorem shown_of_hide {now dwell : τ} {l : Lane σ ρ τ} {e : σ × τ}
    (h : (hide now dwell l).shown = some e) : l.shown = some e := by
  obtain ⟨- | ⟨s, t⟩, - | q⟩ := l <;> simp only [hide] at h ⊢ <;> try exact h
  split at h
  · cases h
  · exact h

theorem Kept.hide {l : Lane σ ρ τ} {offered shown : List ρ} (h : l.Kept offered shown)
    (dwell : τ) : (hide now dwell l).Kept offered shown :=
  ⟨(waiting_hide now dwell l).symm ▸ h.sublist, (waiting_hide now dwell l).symm ▸ h.last,
    (queue_hide now dwell l).symm ▸ h.queue_ne⟩

end Turns

section Forgetting

variable [Field τ] [LinearOrder τ] {stateOf : ρ → σ} {wait now : τ}

/-! ## A lane that forgets what it shows

The second of two lanes has not forgotten.  The two take the same turns; they answer an offer alike,
unless the first has shown the state anew since, and holds the next one back. -/

/-- The first lane has forgotten what the second shows; it may have shown the same state again. -/
def Behind (wait clock : τ) (l l₀ : Lane σ ρ τ) : Prop :=
  l.queue = l₀.queue ∧ (l.shown = l₀.shown ∨
    l.queue = none ∧ ∃ s t₀, l₀.shown = some (s, t₀) ∧ t₀ ≤ clock ∧ wait ≤ clock - t₀ ∧
      ∀ s' t, l.shown = some (s', t) → s' = s)

variable (stateOf wait now) in
/-- No record of a new state is among these, when the first lane has shown the old one anew, or does
so with them, and the new one would have to wait. -/
def Unhurried (l l₀ : Lane σ ρ τ) (records : List ρ) : Prop :=
  ∀ s t₀, l₀.shown = some (s, t₀) →
    (l.shown = none → (∀ r ∈ records.head?, stateOf r = s) →
      (∀ r ∈ records, stateOf r = s) ∨ wait ≤ 0) ∧
    ∀ t, l.shown = some (s, t) → t ≠ t₀ → (∀ r ∈ records, stateOf r = s) ∨ wait ≤ now - t

/-- Two lanes that show the same. -/
theorem unhurried_of_shown {l l₀ : Lane σ ρ τ} (h : l.shown = l₀.shown) (records : List ρ) :
    Unhurried stateOf wait now l l₀ records := by
  refine fun s t₀ hs => ⟨fun hn => by simp [h, hs] at hn, fun t ht hne => ?_⟩
  rw [h, hs, Option.some.injEq, Prod.mk.injEq] at ht
  exact absurd ht.2.symm hne

theorem unhurried_refl (l : Lane σ ρ τ) (records : List ρ) :
    Unhurried stateOf wait now l l records := unhurried_of_shown rfl records

/-- The first lane shows nothing, and a new state comes. -/
theorem unhurried_of_new {l l₀ : Lane σ ρ τ} {r : ρ} (h : l.shown = none)
    (hr : ∀ s t₀, l₀.shown = some (s, t₀) → stateOf r ≠ s) :
    Unhurried stateOf wait now l l₀ [r] := by
  refine fun s t₀ hs => ⟨fun _ hhead => absurd (hhead r rfl) (hr s t₀ hs), fun t ht => ?_⟩
  rw [h] at ht
  cases ht

theorem Behind.refl (clock : τ) (l : Lane σ ρ τ) : Behind wait clock l l := ⟨rfl, .inl rfl⟩

theorem Behind.of_queued {clock : τ} {l l₀ : Lane σ ρ τ} (h : Behind wait clock l l₀)
    (hq : l.queue ≠ none) : l = l₀ := by
  obtain ⟨shown, queue⟩ := l
  obtain ⟨shown₀, queue₀⟩ := l₀
  obtain ⟨hqueue, hs | ⟨hn, -⟩⟩ := h
  · simp only at hqueue hs
    rw [hqueue, hs]
  · exact absurd hn hq

theorem Behind.mono [IsStrictOrderedRing τ] {clock clock' : τ} {l l₀ : Lane σ ρ τ}
    (h : Behind wait clock l l₀) (hc : clock ≤ clock') : Behind wait clock' l l₀ := by
  obtain ⟨hqueue, hs | ⟨hn, s, t₀, hs, ht, hw, hl⟩⟩ := h
  · exact ⟨hqueue, .inl hs⟩
  · exact ⟨hqueue, .inr ⟨hn, s, t₀, hs, ht.trans hc, by linarith, hl⟩⟩

/-- A shorter wait, as long as it ends before the clock reads. -/
theorem Behind.of_le [IsStrictOrderedRing τ] {wait' clock : τ} {l l₀ : Lane σ ρ τ}
    (h : Behind wait clock l l₀) (hw : wait' ≤ 0) : Behind wait' clock l l₀ := by
  obtain ⟨hqueue, hs | ⟨hn, s, t₀, hs, ht, -, hl⟩⟩ := h
  · exact ⟨hqueue, .inl hs⟩
  · exact ⟨hqueue, .inr ⟨hn, s, t₀, hs, ht, by linarith, hl⟩⟩

/-- The first lane forgets. -/
theorem Behind.hide [IsStrictOrderedRing τ] {clock dwell : τ} {l l₀ : Lane σ ρ τ}
    (h : Behind wait clock l l₀) (hc : now ≤ clock) (hw : wait ≤ dwell)
    (hle : ∀ s t, l.shown = some (s, t) → t ≤ clock) :
    Behind wait clock (Lane.hide now dwell l) l₀ := by
  obtain ⟨- | ⟨s, t⟩, - | q⟩ := l <;> try exact h
  simp only [Lane.hide]
  split
  case isFalse => exact h
  case isTrue hlt =>
    obtain ⟨hqueue, hs | ⟨-, s', t₀, hs, ht, hw', -⟩⟩ := h
    · exact ⟨hqueue, .inr ⟨rfl, s, t, hs.symm, hle s t rfl, by linarith, by simp⟩⟩
    · exact ⟨hqueue, .inr ⟨rfl, s', t₀, hs, ht, hw', by simp⟩⟩

end Forgetting

section Offers

variable [DecidableEq σ] (stateOf : ρ → σ)

/-- To the end of the queue; a record of the state that is last there takes its place. -/
def enqueue (queue : List ρ) (r : ρ) : List ρ :=
  if queue.getLast?.map stateOf = some (stateOf r) then queue.dropLast ++ [r] else queue ++ [r]

variable {stateOf}

theorem getLast?_enqueue (q : List ρ) (r : ρ) : (enqueue stateOf q r).getLast? = some r := by
  rw [enqueue]
  split <;> simp

theorem enqueue_ne_nil (q : List ρ) (r : ρ) : enqueue stateOf q r ≠ [] := by
  rw [enqueue]
  split <;> simp

theorem enqueue_sublist (q : List ρ) (r : ρ) : (enqueue stateOf q r).Sublist (q ++ [r]) := by
  rw [enqueue]
  split
  · exact (List.dropLast_sublist q).append_right [r]
  · exact List.Sublist.refl _

variable [Field τ] [LinearOrder τ] (wait now : τ)

variable (stateOf) in
/-- A record is offered; it is returned when it is to be shown at once. -/
def offer (l : Lane σ ρ τ) (r : ρ) : Lane σ ρ τ × Option ρ :=
  match l.queue with
  | some q => ({ l with queue := some (enqueue stateOf q r) }, none)
  | none =>
    match l.shown with
    | none => ({ l with shown := some (stateOf r, now) }, some r)
    | some (s, t) =>
      if stateOf r = s then (l, some r)
      else if wait ≤ now - t then ({ l with shown := some (stateOf r, now) }, some r)
      else ({ l with queue := some [r] }, none)

variable {wait now}

variable (stateOf wait now) in
/-- What an offer does: it queues, shows, or begins a queue. -/
theorem offer_cases (l : Lane σ ρ τ) (r : ρ) :
    (∃ q, l.queue = some q ∧
      offer stateOf wait now l r = ({ l with queue := some (enqueue stateOf q r) }, none)) ∨
    (l.queue = none ∧ (∃ t, l.shown = some (stateOf r, t)) ∧
      offer stateOf wait now l r = (l, some r)) ∨
    (l.queue = none ∧ (∀ s t, l.shown = some (s, t) → stateOf r ≠ s ∧ wait ≤ now - t) ∧
      offer stateOf wait now l r = ({ l with shown := some (stateOf r, now) }, some r)) ∨
    (l.queue = none ∧ (∃ s t, l.shown = some (s, t) ∧ stateOf r ≠ s ∧ ¬ wait ≤ now - t) ∧
      offer stateOf wait now l r = ({ l with queue := some [r] }, none)) := by
  obtain ⟨shown, queue⟩ := l
  obtain - | q := queue
  · obtain - | ⟨s, t⟩ := shown
    · exact .inr (.inr (.inl ⟨rfl, by simp, rfl⟩))
    · by_cases hs : stateOf r = s
      · exact .inr (.inl ⟨rfl, ⟨t, by rw [hs]⟩, by simp [offer, hs]⟩)
      · by_cases ht : wait ≤ now - t
        · refine .inr (.inr (.inl ⟨rfl, ?_, by simp [offer, hs, ht]⟩))
          rintro s' t' ⟨⟩
          exact ⟨hs, ht⟩
        · exact .inr (.inr (.inr ⟨rfl, ⟨s, t, rfl, hs, ht⟩, by simp [offer, hs, ht]⟩))
  · exact .inl ⟨q, rfl, rfl⟩

/-- What is shown is the record that is offered, and no other comes to wait. -/
theorem mem_of_offer {l : Lane σ ρ τ} {r x : ρ} :
    ((offer stateOf wait now l r).2 = some x → x = r) ∧
      (x ∈ (offer stateOf wait now l r).1.waiting → x ∈ l.waiting ∨ x = r) := by
  obtain ⟨q, hq, he⟩ | ⟨hq, -, he⟩ | ⟨hq, -, he⟩ | ⟨hq, -, he⟩ :=
    offer_cases stateOf wait now l r <;> rw [he]
  · refine ⟨by simp, fun hx => ?_⟩
    have hx := (enqueue_sublist q r).subset hx
    simpa [waiting, hq] using hx
  · exact ⟨fun hx => (Option.some.inj hx).symm, fun hx => .inl hx⟩
  · exact ⟨fun hx => (Option.some.inj hx).symm, fun hx => .inl (by simpa [waiting] using hx)⟩
  · exact ⟨by simp, fun hx => .inr (by simpa [waiting] using hx)⟩

/-- Where no state has to stand, nothing begins to wait. -/
theorem queue_offer_of_le {l : Lane σ ρ τ} {r : ρ}
    (hw : ∀ s t, l.shown = some (s, t) → wait ≤ now - t)
    (hl : l.queue = none) : (offer stateOf wait now l r).1.queue = none := by
  obtain ⟨q, hq, he⟩ | ⟨hq, -, he⟩ | ⟨hq, -, he⟩ | ⟨hq, ⟨s, t, ht, -, hn⟩, he⟩ :=
    offer_cases stateOf wait now l r
  · rw [hl] at hq
    cases hq
  · rw [he]; exact hl
  · rw [he]; exact hl
  · exact absurd (hw s t ht) hn

theorem Kept.offer {l : Lane σ ρ τ} {offered shown : List ρ} (h : l.Kept offered shown) (r : ρ) :
    (offer stateOf wait now l r).1.Kept (offered ++ [r])
      (shown ++ (offer stateOf wait now l r).2.toList) := by
  obtain ⟨q, hq, he⟩ | ⟨hq, -, he⟩ | ⟨hq, -, he⟩ | ⟨hq, -, he⟩ :=
    offer_cases stateOf wait now l r <;> rw [he]
  · have hs := h.sublist
    simp only [waiting, hq, Option.getD_some] at hs
    refine ⟨?_, ?_, by simp [enqueue_ne_nil]⟩
    · have hs' := hs.append_right [r]
      rw [List.append_assoc] at hs'
      simpa [waiting] using ((enqueue_sublist q r).append_left shown).trans hs'
    · simp [waiting, List.getLast?_append, getLast?_enqueue]
  all_goals
    have hs := h.sublist
    simp only [waiting, hq, Option.getD_none, List.append_nil] at hs
    exact ⟨by simpa [waiting, hq] using hs.append_right [r], by simp [waiting, hq], by simp [hq]⟩

/-! ## The states shown are the states offered, each for long enough -/

variable (stateOf) in
/-- Runs of equal states aside, what was shown and what waits is what was offered; the runs shown
begin at least `wait` apart, none after `clock`.  The run on show began no later than the lane says;
one that is no longer on show has stood for `wait`. -/
structure Paced (wait clock : τ) (l : Lane σ ρ τ) (offered : List ρ)
    (shown : List (τ × ρ)) : Prop where
  order : ((shown.map Prod.snd ++ l.waiting).map stateOf).destutter (· ≠ ·) =
    (offered.map stateOf).destutter (· ≠ ·)
  apart : (runs (fun a : τ × ρ => stateOf a.2) shown).IsChain fun a b => a.1 + wait ≤ b.1
  past : ∀ a ∈ (runs (fun a : τ × ρ => stateOf a.2) shown).getLast?, a.1 ≤ clock
  on_show : ∀ s t, l.shown = some (s, t) →
    (∃ a, (runs (fun a : τ × ρ => stateOf a.2) shown).getLast? = some a ∧
      stateOf a.2 = s ∧ a.1 ≤ t) ∧
      (s :: l.waiting.map stateOf).IsChain (· ≠ ·)
  hidden : l.shown = none → l.waiting = [] ∧
    ∀ a ∈ (runs (fun a : τ × ρ => stateOf a.2) shown).getLast?, a.1 + wait ≤ clock

theorem paced_empty (clock : τ) : Paced stateOf wait clock ({} : Lane σ ρ τ) [] [] :=
  ⟨rfl, .nil, by simp, by simp, fun _ => ⟨rfl, by simp⟩⟩

theorem Paced.mono {clock clock' : τ} {l : Lane σ ρ τ} {offered : List ρ} {shown : List (τ × ρ)}
    (h : Paced stateOf wait clock l offered shown) (hc : clock ≤ clock') :
    Paced stateOf wait clock' l offered shown :=
  ⟨h.order, h.apart, fun a ha => (h.past a ha).trans hc, h.on_show,
    fun hn => ⟨(h.hidden hn).1, fun a ha => ((h.hidden hn).2 a ha).trans hc⟩⟩

variable (stateOf) in
/-- The last of the queue stays and the record follows it, or the record takes its place. -/
theorem enqueue_cases {q : List ρ} (hq : q ≠ []) (r : ρ) : ∃ q' x, q = q' ++ [x] ∧
    (stateOf x = stateOf r ∧ enqueue stateOf q r = q' ++ [r] ∨
      stateOf x ≠ stateOf r ∧ enqueue stateOf q r = q' ++ [x, r]) := by
  obtain rfl | ⟨q', x, rfl⟩ := q.eq_nil_or_concat'
  · exact absurd rfl hq
  · by_cases hx : stateOf x = stateOf r
    · exact ⟨q', x, rfl, .inl ⟨hx, by simp [enqueue, hx]⟩⟩
    · exact ⟨q', x, rfl, .inr ⟨hx, by simp [enqueue, hx]⟩⟩

variable {l : Lane σ ρ τ} {offered : List ρ} {shown : List (τ × ρ)}

/-- The states offered, one more, when the record follows all there is. -/
theorem Paced.order_concat {clock : τ} (h : Paced stateOf wait clock l offered shown)
    (hk : l.Kept offered (shown.map Prod.snd)) (r : ρ) :
    ((shown.map Prod.snd ++ l.waiting ++ [r]).map stateOf).destutter (· ≠ ·) =
      ((offered ++ [r]).map stateOf).destutter (· ≠ ·) := by
  have hmap : ∀ m : List ρ, (m ++ [r]).map stateOf = m.map stateOf ++ [stateOf r] := fun m =>
    List.map_append
  rw [hmap, hmap]
  refine destutter_concat_congr h.order ?_ (stateOf r)
  rw [List.getLast?_map, List.getLast?_map, hk.last]

/-- The record that is shown, as a run. -/
theorem Paced.show_apart {clock : τ} (h : Paced stateOf wait clock l offered shown) {r : ρ}
    (hstood : ∀ a ∈ (runs (fun a : τ × ρ => stateOf a.2) shown).getLast?, stateOf a.2 ≠ stateOf r →
      a.1 + wait ≤ now) :
    (runs (fun a : τ × ρ => stateOf a.2) (shown ++ [(now, r)])).IsChain fun a b =>
      a.1 + wait ≤ b.1 := by
  by_cases hr : shown.getLast?.map (fun a => stateOf a.2) = some (stateOf r)
  · rw [runs_concat_of_eq hr]
    exact h.apart
  · rw [runs_concat_of_ne hr, List.isChain_append]
    refine ⟨h.apart, .singleton _, fun a ha b hb => ?_⟩
    obtain rfl : (now, r) = b := by simpa using hb
    refine hstood a ha fun he => hr ?_
    rw [← getLast?_runs, Option.mem_def.mp ha, Option.map_some, he]

/-- Where the run of the record that is shown begins. -/
theorem Paced.show_begin {clock : τ} (h : Paced stateOf wait clock l offered shown)
    (hc : clock ≤ now) (r : ρ) :
    ∃ a, (runs (fun a : τ × ρ => stateOf a.2) (shown ++ [(now, r)])).getLast? = some a ∧
      stateOf a.2 = stateOf r ∧ a.1 ≤ now := by
  by_cases hr : shown.getLast?.map (fun a => stateOf a.2) = some (stateOf r)
  · rw [runs_concat_of_eq hr]
    rw [← getLast?_runs, Option.map_eq_some_iff] at hr
    obtain ⟨a, ha, hs⟩ := hr
    exact ⟨a, ha, hs, (h.past a ha).trans hc⟩
  · exact ⟨(now, r), by rw [runs_concat_of_ne hr, List.getLast?_concat], rfl, le_rfl⟩

/-- **An offer keeps the pace.** -/
theorem Paced.offer [IsStrictOrderedRing τ] (h : Paced stateOf wait now l offered shown)
    (hk : l.Kept offered (shown.map Prod.snd)) (r : ρ) :
    Paced stateOf wait now (Lane.offer stateOf wait now l r).1 (offered ++ [r])
      (shown ++ (Lane.offer stateOf wait now l r).2.toList.map fun r => (now, r)) := by
  have horder := h.order_concat hk r
  obtain ⟨q, hq, he⟩ | ⟨hq, ⟨t, ht⟩, he⟩ | ⟨hq, hs, he⟩ | ⟨hq, ⟨s, t, ht, hs, hw⟩, he⟩ :=
    offer_cases stateOf wait now l r <;> rw [he]
  · -- the queue grows, or its last record is replaced
    have hwait : l.waiting = q := by rw [waiting, hq, Option.getD_some]
    have hne : q ≠ [] := fun h0 => hk.queue_ne (by rw [hq, h0])
    obtain ⟨q', x, rfl, ⟨hx, hen⟩ | ⟨hx, hen⟩⟩ := enqueue_cases stateOf hne r
    · have hmap : (q' ++ [r]).map stateOf = (q' ++ [x]).map stateOf := by simp [hx]
      have hlast : (offered.map stateOf).getLast? = some (stateOf r) := by
        rw [List.getLast?_map, ← hk.last, hwait, ← List.append_assoc, List.getLast?_concat,
          Option.map_some, hx]
      refine ⟨?_, by simpa using h.apart, by simpa using h.past, fun s t hst => ⟨?_, ?_⟩,
        fun hn => absurd (h.hidden hn).1 (hwait ▸ hne)⟩
      · have hoff : (offered ++ [r]).map stateOf = offered.map stateOf ++ [stateOf r] :=
          List.map_append
        rw [hoff, destutter_concat_of_eq hlast, ← h.order, hwait]
        simp only [waiting, hen, Option.getD_some, Option.toList_none, List.map_nil,
          List.append_nil, List.map_append, List.map_cons, hx]
      · simpa using (h.on_show s t hst).1
      · have hc := hwait ▸ (h.on_show s t hst).2
        simpa only [waiting, hen, Option.getD_some, hmap] using hc
    · refine ⟨?_, by simpa using h.apart, by simpa using h.past, fun s t hst => ⟨?_, ?_⟩,
        fun hn => absurd (h.hidden hn).1 (hwait ▸ hne)⟩
      · rw [← horder, hwait]
        simp [waiting, hen]
      · simpa using (h.on_show s t hst).1
      · have hc := hwait ▸ (h.on_show s t hst).2
        have hmap :
            s :: (q' ++ [x, r]).map stateOf = (s :: (q' ++ [x]).map stateOf) ++ [stateOf r] := by
          simp
        have hlast : (s :: (q' ++ [x]).map stateOf).getLast? = some (stateOf x) := by
          rw [List.map_append, ← List.cons_append, List.map_singleton, List.getLast?_concat]
        simp only [waiting, hen, Option.getD_some]
        rw [hmap, List.isChain_append]
        refine ⟨hc, .singleton _, fun y hy z hz => ?_⟩
        obtain rfl : stateOf r = z := by simpa using hz
        obtain rfl : stateOf x = y := Option.some.inj (hlast.symm.trans hy)
        exact hx
  · -- the state on show goes on
    have hwait : l.waiting = [] := by rw [waiting, hq, Option.getD_none]
    obtain ⟨⟨a, ha, hs, hle⟩, hc⟩ := h.on_show _ t ht
    have hruns : runs (fun a : τ × ρ => stateOf a.2) (shown ++ [(now, r)]) =
        runs (fun a => stateOf a.2) shown := by
      refine runs_concat_of_eq ?_
      rw [← getLast?_runs, ha, Option.map_some, hs]
    refine ⟨?_, by simpa [hruns] using h.apart, by simpa [hruns] using h.past, fun s' t' hst => ?_,
      fun hn => by simp [ht] at hn⟩
    · rw [← horder, hwait]
      simp
    · obtain ⟨rfl, rfl⟩ : stateOf r = s' ∧ t = t' := by simpa [ht] using hst
      exact ⟨⟨a, by simpa [hruns] using ha, hs, hle⟩, hc⟩
  · -- a new state is shown
    have hwait : l.waiting = [] := by rw [waiting, hq, Option.getD_none]
    have hstood : ∀ a ∈ (runs (fun a : τ × ρ => stateOf a.2) shown).getLast?,
        a.1 + wait ≤ now := by
      intro a ha
      obtain hn | ⟨⟨s, t⟩, ht⟩ := l.shown.eq_none_or_eq_some
      · exact (h.hidden hn).2 a ha
      · obtain ⟨⟨b, hb, -, hle⟩, -⟩ := h.on_show s t ht
        obtain rfl : b = a := Option.some.inj (hb.symm.trans ha)
        have := (hs s t ht).2
        linarith
    obtain ⟨a, ha, has, hle⟩ := h.show_begin le_rfl r
    refine ⟨?_, h.show_apart fun a ha _ => hstood a ha, fun b hb => ?_, fun s' t' hst => ?_,
      fun hn => by simp at hn⟩
    · rw [← horder, hwait]
      simp [waiting, hq]
    · obtain rfl : a = b := Option.some.inj (ha.symm.trans hb)
      exact hle
    · obtain ⟨rfl, rfl⟩ : stateOf r = s' ∧ now = t' := by simpa using hst
      exact ⟨⟨a, ha, has, hle⟩, by simp [waiting, hq]⟩
  · -- the record begins a queue
    have hwait : l.waiting = [] := by rw [waiting, hq, Option.getD_none]
    refine ⟨?_, by simpa using h.apart, by simpa using h.past, fun s' t' hst => ?_,
      fun hn => by simp [ht] at hn⟩
    · rw [← horder, hwait]
      simp [waiting]
    · obtain ⟨rfl, rfl⟩ : s = s' ∧ t = t' := by simpa [ht] using hst
      exact ⟨by simpa using (h.on_show s t ht).1, by simpa [waiting] using hs.symm⟩

/-- **A turn keeps the pace**, also one that reads an earlier clock. -/
theorem Paced.turn [IsStrictOrderedRing τ] {clock : τ}
    (h : Paced stateOf wait clock l offered shown) (hc : now ≤ clock) :
    Paced stateOf wait clock (Lane.turn stateOf wait now false l).1 offered
      (shown ++ (Lane.turn stateOf wait now false l).2.toList.map fun r => (now, r)) := by
  obtain he | ⟨r, rest, hq, hy, next, hn, he⟩ :=
    turn_cases stateOf wait now false l <;> rw [he]
  · simpa using h
  · obtain rfl : next = r := by simpa using hn
    have hwait : l.waiting = next :: rest := by rw [waiting, hq, Option.getD_some]
    obtain hs | ⟨⟨s, t⟩, ht⟩ := l.shown.eq_none_or_eq_some
    · exact absurd (h.hidden hs).1 (by simp [hwait])
    · have hw : wait ≤ now - t := by simpa [young, ht] using hy rfl
      obtain ⟨⟨a, ha, has, hle⟩, hchain⟩ := h.on_show s t ht
      rw [hwait, List.map_cons, List.isChain_cons_cons] at hchain
      have hnew : shown.getLast?.map (fun a => stateOf a.2) ≠ some (stateOf next) := by
        rw [← getLast?_runs, ha, Option.map_some, has]
        exact fun h0 => hchain.1 (Option.some.inj h0)
      have hlast : (runs (fun a : τ × ρ => stateOf a.2) (shown ++ [(now, next)])).getLast? =
          some (now, next) := by
        rw [runs_concat_of_ne hnew, List.getLast?_concat]
      have hrest : (if false || rest.isEmpty then none else some rest).getD [] = rest := by
        cases rest <;> rfl
      refine ⟨?_, h.show_apart fun b hb _ => ?_, fun b hb => ?_, fun s' t' hst => ?_,
        fun hn => by simp at hn⟩
      · rw [← h.order, hwait]
        simp only [waiting, hrest, Option.toList_some, List.map_append, List.map_cons, List.map_nil,
          List.append_assoc, List.singleton_append]
      · obtain rfl : a = b := Option.some.inj (ha.symm.trans hb)
        linarith
      · obtain rfl : (now, next) = b := Option.some.inj (hlast.symm.trans hb)
        exact hc
      · obtain ⟨rfl, rfl⟩ : stateOf next = s' ∧ now = t' := by simpa using hst
        refine ⟨⟨(now, next), hlast, rfl, le_rfl⟩, ?_⟩
        simpa only [waiting, hrest] using hchain.2

theorem Paced.hide [IsStrictOrderedRing τ] {clock dwell : τ}
    (h : Paced stateOf wait clock l offered shown) (hc : now ≤ clock) (hw : wait ≤ dwell) :
    Paced stateOf wait clock (Lane.hide now dwell l) offered shown := by
  obtain ⟨- | ⟨s, t⟩, - | q⟩ := l <;> try exact h
  simp only [Lane.hide]
  split
  case isFalse => exact h
  case isTrue hlt =>
    obtain ⟨⟨a, ha, -, hle⟩, -⟩ := h.on_show s t rfl
    refine ⟨h.order, h.apart, h.past, fun s' t' hst =>
      by simp at hst, fun _ => ⟨rfl, fun b hb => ?_⟩⟩
    obtain rfl : a = b := Option.some.inj (ha.symm.trans hb)
    linarith

/-- **An offer to both**: the same is shown, and the rest may be offered. -/
theorem Behind.offer [IsStrictOrderedRing τ] {l l₀ : Lane σ ρ τ} {r : ρ} {records : List ρ}
    (h : Behind wait now l l₀) (hu : Unhurried stateOf wait now l l₀ (r :: records)) :
    (Lane.offer stateOf wait now l r).2 = (Lane.offer stateOf wait now l₀ r).2 ∧
      Behind wait now (Lane.offer stateOf wait now l r).1 (Lane.offer stateOf wait now l₀ r).1 ∧
      Unhurried stateOf wait now (Lane.offer stateOf wait now l r).1
        (Lane.offer stateOf wait now l₀ r).1 records := by
  obtain ⟨shown, queue⟩ := l
  obtain ⟨shown₀, queue₀⟩ := l₀
  obtain ⟨hqueue, hs | ⟨hn, s, t₀, hs, ht, hw, hl⟩⟩ := h
  · simp only at hqueue hs
    subst hqueue hs
    exact ⟨rfl, .refl now _, unhurried_refl _ records⟩
  · simp only at hqueue hn hs hl
    subst hqueue hn hs
    have hu := hu s t₀ rfl
    by_cases hr : stateOf r = s
    · -- the state on show, which the first lane may have to show anew
      have h₀ :
          Lane.offer stateOf wait now ⟨some (s, t₀), none⟩ r = (⟨some (s, t₀), none⟩, some r) := by
        simp [Lane.offer, hr]
      obtain - | ⟨s', t⟩ := shown
      · have h₁ : Lane.offer stateOf wait now ⟨none, none⟩ r = (⟨some (s, now), none⟩, some r) := by
          simp [Lane.offer, hr]
        rw [h₀, h₁]
        refine ⟨rfl, ⟨rfl, .inr ⟨rfl, s, t₀, rfl, ht, hw, by simp⟩⟩, fun a b hab => ?_⟩
        obtain ⟨rfl, rfl⟩ : s = a ∧ t₀ = b := by simpa using hab
        refine ⟨by simp, fun t ht _ => ?_⟩
        obtain rfl : now = t := by simpa using ht
        rw [sub_self]
        exact (hu.1 rfl (by simpa using hr)).imp_left fun hall => (List.forall_mem_cons.mp hall).2
      · obtain rfl := hl s' t rfl
        have h₁ : Lane.offer stateOf wait now ⟨some (s', t), none⟩ r =
            (⟨some (s', t), none⟩, some r) := by
          simp [Lane.offer, hr]
        rw [h₀, h₁]
        refine ⟨rfl, ⟨rfl, .inr ⟨rfl, s', t₀, rfl, ht, hw, hl⟩⟩, fun a b hab => ?_⟩
        obtain ⟨rfl, rfl⟩ : s' = a ∧ t₀ = b := by simpa using hab
        refine ⟨by simp, fun t' ht' hne => ?_⟩
        exact (hu.2 t' ht' hne).imp_left fun hall => (List.forall_mem_cons.mp hall).2
    · -- a new state, which neither lane holds back
      have h₀ : Lane.offer stateOf wait now ⟨some (s, t₀), none⟩ r =
          (⟨some (stateOf r, now), none⟩, some r) := by
        simp [Lane.offer, hr, hw]
      have h₁ : Lane.offer stateOf wait now ⟨shown, none⟩ r =
          (⟨some (stateOf r, now), none⟩, some r) := by
        obtain - | ⟨s', t⟩ := shown
        · rfl
        · obtain rfl := hl s' t rfl
          have hw' : wait ≤ now - t := by
            by_cases htt : t = t₀
            · exact htt ▸ hw
            · exact (hu.2 t rfl htt).resolve_left fun hall => hr (hall r List.mem_cons_self)
          simp [Lane.offer, hr, hw']
      rw [h₀, h₁]
      exact ⟨rfl, .refl now _, unhurried_refl _ records⟩

end Offers

end Lane

end Machinery
