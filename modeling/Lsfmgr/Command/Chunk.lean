import Mathlib
import Lsfmgr.Machinery.Packing

/-!
# Command/Chunk — `chunk_args`, one loop with two limits

The generator keeps the chunk it fills and the length of the command line that the chunk would make.
It yields the chunk when the next item would be one too many or would make the line too long, and
raises at the first item that is too long even alone; what it has yielded by then is out already.
-/

namespace Lsfmgr.Command

open Machinery

/-- A string, by its characters. -/
abbrev Text := List Char

/-- What a run of the generator yields, and the message it raises `ArgMaxExceededError` with. -/
structure Chunking where
  chunks : List (List Text)
  raised : Option Text

/-- The text of the exception. -/
def argMaxMessage (argMax : ℕ) (item : Text) : Text :=
  s!"단일 인자가 ARG_MAX({argMax})를 초과: ".toList ++ item.take 80 ++ "...".toList

/-- The room an item takes on the command line: its characters and what separates it. -/
def room (item : Text) : ℕ := item.length + 1

/-- `sum(len(t) + 1 for t in tokens)` -/
def lineLength (tokens : List Text) : ℕ := (tokens.map room).sum

section

variable (chunkSize argMax baseLen : ℕ)

/-- The loop of `chunk_args`, with the chunk it fills and the length so far. -/
def chunkLoop : List Text → List Text → ℕ → Chunking
  | [], chunk, _ => ⟨if chunk ≠ [] then [chunk] else [], none⟩
  | item :: items, chunk, length =>
    let add := room item
    if baseLen + add > argMax then ⟨[], some (argMaxMessage argMax item)⟩
    else if chunk ≠ [] ∧ (chunk.length ≥ chunkSize ∨ length + add > argMax) then
      let rest := chunkLoop items [item] (baseLen + add)
      ⟨chunk :: rest.chunks, rest.raised⟩
    else chunkLoop items (chunk ++ [item]) (length + add)

/-- `chunk_args` -/
def chunkArgs (items : List Text) : Chunking := chunkLoop chunkSize argMax baseLen items [] baseLen

/-- An item that fits a line by itself. -/
def Fits (item : Text) : Prop := baseLen + room item ≤ argMax

instance (item : Text) : Decidable (Fits argMax baseLen item) := inferInstanceAs (Decidable (_ ≤ _))

/-- A chunk within both limits. -/
def Within (chunk : List Text) : Prop :=
  chunk.length ≤ chunkSize ∧ baseLen + lineLength chunk ≤ argMax

end

@[simp] theorem lineLength_nil : lineLength [] = 0 := rfl

@[simp] theorem lineLength_cons (t : Text) (ts : List Text) :
    lineLength (t :: ts) = room t + lineLength ts := by simp [lineLength]

@[simp] theorem lineLength_append (ts us : List Text) :
    lineLength (ts ++ us) = lineLength ts + lineLength us := by simp [lineLength]

section

variable {chunkSize argMax baseLen : ℕ}

theorem Within.of_append {c d : List Text} (h : Within chunkSize argMax baseLen (c ++ d)) :
    Within chunkSize argMax baseLen c := by
  obtain ⟨hn, hl⟩ := h
  rw [List.length_append] at hn
  rw [lineLength_append] at hl
  exact ⟨by omega, by omega⟩

theorem within_singleton (hs : 1 ≤ chunkSize) {item : Text} (h : Fits argMax baseLen item) :
    Within chunkSize argMax baseLen [item] :=
  ⟨by simpa using hs, by simpa [Fits] using h⟩

/-! ## The loop -/

/-- The chunk being filled is the front part of the first one yielded. -/
theorem prefix_chunkLoop : ∀ (items : List Text) (chunk : List Text) (length : ℕ),
    ∀ d ∈ (chunkLoop chunkSize argMax baseLen items chunk length).chunks.head?, chunk <+: d
  | [], chunk, _, d, hd => by
      rw [chunkLoop] at hd
      split at hd
      · simp only [List.head?_cons, Option.mem_def, Option.some.injEq] at hd
        exact hd ▸ List.prefix_refl _
      · simp at hd
  | item :: items, chunk, length, d, hd => by
      rw [chunkLoop] at hd
      dsimp only at hd
      split_ifs at hd
      · simp at hd
      · simp only [List.head?_cons, Option.mem_def, Option.some.injEq] at hd
        exact hd ▸ List.prefix_refl _
      · exact (List.prefix_append chunk [item]).trans (prefix_chunkLoop items _ _ d hd)

/-- It raises at the first item that does not fit. -/
theorem raised_chunkLoop : ∀ (items : List Text) (chunk : List Text) (length : ℕ),
    (chunkLoop chunkSize argMax baseLen items chunk length).raised =
      (items.find? fun item => ¬ Fits argMax baseLen item).map (argMaxMessage argMax)
  | [], _, _ => rfl
  | item :: items, chunk, length => by
      rw [chunkLoop, List.find?_cons]
      dsimp only
      by_cases hfit : Fits argMax baseLen item
      · have hle : ¬ baseLen + room item > argMax := Nat.not_lt.mpr hfit
        rw [if_neg hle]
        simp only [hfit, not_true_eq_false, decide_false]
        split_ifs
        · exact raised_chunkLoop items _ _
        · exact raised_chunkLoop items _ _
      · have hgt : baseLen + room item > argMax := Nat.not_le.mp hfit
        simp [hgt, hfit]

/-- What is yielded is a front part of the chunk being filled and the items that fit. -/
theorem flatten_prefix_chunkLoop : ∀ (items : List Text) (chunk : List Text) (length : ℕ),
    (chunkLoop chunkSize argMax baseLen items chunk length).chunks.flatten <+:
      chunk ++ items.takeWhile fun item => Fits argMax baseLen item
  | [], chunk, _ => by
      rw [chunkLoop]
      split <;> simp_all
  | item :: items, chunk, length => by
      rw [chunkLoop]
      dsimp only
      by_cases hfit : Fits argMax baseLen item
      · have hle : ¬ baseLen + room item > argMax := Nat.not_lt.mpr hfit
        rw [if_neg hle, List.takeWhile_cons_of_pos (by simpa using hfit)]
        split_ifs
        · have ih := flatten_prefix_chunkLoop items [item] (baseLen + room item)
          simpa using (List.prefix_append_right_inj chunk).mpr ih
        · simpa using flatten_prefix_chunkLoop items (chunk ++ [item]) (length + room item)
      · have hgt : baseLen + room item > argMax := Nat.not_le.mp hfit
        rw [if_pos hgt]
        exact List.nil_prefix

/-- Nothing is left out unless it raises. -/
theorem flatten_chunkLoop : ∀ (items : List Text) (chunk : List Text) (length : ℕ),
    (∀ item ∈ items, Fits argMax baseLen item) →
      (chunkLoop chunkSize argMax baseLen items chunk length).chunks.flatten = chunk ++ items
  | [], chunk, _, _ => by
      rw [chunkLoop]
      split <;> simp_all
  | item :: items, chunk, length, hfit => by
      rw [List.forall_mem_cons] at hfit
      have hle : ¬ baseLen + room item > argMax := Nat.not_lt.mpr hfit.1
      rw [chunkLoop]
      dsimp only
      rw [if_neg hle]
      split_ifs
      · simp [flatten_chunkLoop items [item] (baseLen + room item) hfit.2]
      · simp [flatten_chunkLoop items (chunk ++ [item]) (length + room item) hfit.2]

/-- The chunks are within the limits, and as long as they may be: the loop's length is that of the
line its chunk makes. -/
theorem packing_chunkLoop (hs : 1 ≤ chunkSize) : ∀ (items : List Text) (chunk : List Text),
    (chunk ≠ [] → Within chunkSize argMax baseLen chunk) →
      Packing (Within chunkSize argMax baseLen)
        (chunkLoop chunkSize argMax baseLen items chunk (baseLen + lineLength chunk)).chunks
  | [], chunk, hc => by
      rw [chunkLoop]
      split_ifs with hne
      · exact .singleton hne (hc hne)
      · exact .nil
  | item :: items, chunk, hc => by
      rw [chunkLoop]
      dsimp only
      by_cases hfit : Fits argMax baseLen item
      case neg =>
        have hgt : baseLen + room item > argMax := Nat.not_le.mp hfit
        rw [if_pos hgt]
        exact .nil
      case pos =>
        have hle : ¬ baseLen + room item > argMax := Nat.not_lt.mpr hfit
        rw [if_neg hle]
        split_ifs with hfull
        · obtain ⟨hne, hfull⟩ := hfull
          have ih := packing_chunkLoop hs items [item] fun _ => within_singleton hs hfit
          rw [lineLength_cons, lineLength_nil, Nat.add_zero] at ih
          refine .cons hne (hc hne) (fun d hd x hx hok => ?_) ih
          -- the next chunk begins with the item that did not fit this one
          obtain ⟨e, rfl⟩ := prefix_chunkLoop items [item] (baseLen + room item) d hd
          simp only [List.singleton_append, List.head?_cons, Option.mem_def,
            Option.some.injEq] at hx
          obtain ⟨hn, hl⟩ := hok
          simp only [List.length_append, List.length_singleton, lineLength_append, lineLength_cons,
            lineLength_nil] at hn hl
          subst hx
          omega
        · have hlen : baseLen + lineLength chunk + room item
              = baseLen + lineLength (chunk ++ [item]) := by
            simp [Nat.add_assoc]
          rw [hlen]
          refine packing_chunkLoop hs items (chunk ++ [item]) fun _ => ?_
          rcases eq_or_ne chunk [] with rfl | hne
          · exact within_singleton hs hfit
          · have hroom :
                chunk.length < chunkSize ∧ baseLen + lineLength chunk + room item ≤ argMax :=
              by
                simp only [not_and, not_or, Nat.not_le, gt_iff_lt, Nat.not_lt, ge_iff_le] at hfull
                exact hfull hne
            exact ⟨by simpa using hroom.1, by simpa [Nat.add_assoc] using hroom.2⟩

/-- The chunks of `chunk_args` are the packing of what they hold. -/
theorem packing_chunkArgs (hs : 1 ≤ chunkSize) (items : List Text) :
    Packing (Within chunkSize argMax baseLen)
        (chunkArgs chunkSize argMax baseLen items).chunks := by
  simpa [chunkArgs] using packing_chunkLoop hs items [] (fun h => absurd rfl h)

/-- It raises if some item does not fit, and only then. -/
theorem raised_chunkArgs_eq_none_iff {items : List Text} :
    (chunkArgs chunkSize argMax baseLen items).raised = none ↔
      ∀ item ∈ items, Fits argMax baseLen item := by
  rw [chunkArgs, raised_chunkLoop, Option.map_eq_none_iff, List.find?_eq_none]
  simp

theorem flatten_chunkArgs {items : List Text} (h : ∀ item ∈ items, Fits argMax baseLen item) :
    (chunkArgs chunkSize argMax baseLen items).chunks.flatten = items := by
  simpa [chunkArgs] using flatten_chunkLoop items [] baseLen h

/-- **`chunk_args` partitions exactly**: every chunk is non-empty and within both limits, and could
not have taken the first item of the next one; together they are the items, or it raises at the
first one that is too long by itself, and then they are a part of those before it. -/
theorem chunkArgs_partitions (items : List Text) (hs : 1 ≤ chunkSize) :
    let result := chunkArgs chunkSize argMax baseLen items
    (∀ chunk ∈ result.chunks, chunk ≠ [] ∧ chunk.length ≤ chunkSize ∧
        baseLen + (chunk.map fun item => item.length + 1).sum ≤ argMax) ∧
      (result.chunks.IsChain fun chunk next => ∀ item ∈ next.head?,
        chunk.length + 1 > chunkSize ∨
          baseLen + (chunk.map fun item => item.length + 1).sum + (item.length + 1) > argMax) ∧
      ((∀ item ∈ items, baseLen + item.length + 1 ≤ argMax) →
        result.raised = none ∧ result.chunks.flatten = items) ∧
      ((∃ item ∈ items, baseLen + item.length + 1 > argMax) →
        ∃ before item after, items = before ++ item :: after ∧
          (∀ x ∈ before, baseLen + x.length + 1 ≤ argMax) ∧ baseLen + item.length + 1 > argMax ∧
          result.raised = some (argMaxMessage argMax item) ∧
          result.chunks.flatten <+: before) := by
  have hp : Packing (Within chunkSize argMax baseLen)
      (chunkArgs chunkSize argMax baseLen items).chunks := packing_chunkArgs hs items
  refine ⟨fun chunk hc => ⟨hp.ne_nil chunk hc, hp.within chunk hc⟩, ?_, fun h => ?_, fun h => ?_⟩
  · refine hp.full.imp fun chunk next hfull item hitem => ?_
    have hnot := hfull item hitem
    simp only [Within, List.length_append, List.length_singleton, lineLength_append,
      lineLength_cons, lineLength_nil, not_and_or, Nat.not_le] at hnot
    rcases hnot with hnot | hnot
    · exact .inl hnot
    · refine .inr ?_
      rw [← Nat.add_assoc] at hnot
      exact hnot
  · exact ⟨raised_chunkArgs_eq_none_iff.mpr h, flatten_chunkArgs h⟩
  · set fits : Text → Bool := fun item => Fits argMax baseLen item with hfits
    obtain ⟨item, after, hsplit⟩ : ∃ item after, items.dropWhile fits = item :: after := by
      cases hd : items.dropWhile fits with
      | cons item after => exact ⟨item, after, rfl⟩
      | nil =>
        obtain ⟨item, hmem, hgt⟩ := h
        have := List.dropWhile_eq_nil_iff.mp hd item hmem
        exact absurd (of_decide_eq_true this) (Nat.not_le.mpr hgt)
    have hitems : items = items.takeWhile fits ++ item :: after := by
      rw [← hsplit, List.takeWhile_append_dropWhile]
    have hbefore : ∀ x ∈ items.takeWhile fits, fits x = true :=
      fun x hx => List.mem_takeWhile_imp hx
    have hitem : ¬ fits item = true := by
      have := List.head_dropWhile_not fits (l := items) (by simp [hsplit])
      simpa [hsplit] using this
    refine ⟨items.takeWhile fits, item, after, hitems, fun x hx => of_decide_eq_true (hbefore x hx),
      ?_, ?_, ?_⟩
    · have hnot : ¬ Fits argMax baseLen item := by simpa [fits] using hitem
      exact Nat.not_le.mp hnot
    · rw [chunkArgs, raised_chunkLoop, hitems, List.find?_append, List.find?_eq_none.mpr,
        List.find?_cons_of_pos]
      · rfl
      · simpa [fits] using hitem
      · intro x hx
        simpa [fits] using hbefore x hx
    · simpa [chunkArgs] using flatten_prefix_chunkLoop items [] baseLen

end

/-- Two items that need two lines. -/
theorem chunkArgs_partitions_two : 1 ≤ 500 ∧ let items := ["1234".toList, "567".toList]
    (chunkArgs 500 16 10 items).raised = none ∧
    (chunkArgs 500 16 10 items).chunks.flatten = items :=
  ⟨by decide, (chunkArgs_partitions ["1234".toList, "567".toList] (by decide)).2.2.1 (by decide)⟩

end Lsfmgr.Command
