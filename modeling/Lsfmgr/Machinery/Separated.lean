import Mathlib
import Lsfmgr.Machinery.Strptime

/-!
# Machinery/Separated — cells joined to rows, and rows to lines

A `Cell` of a separator has no line break and no blank at its ends, and the separator is not in it.
Joining cells and splitting the row again gives the cells (`line_row`, `split_row`), and the same
for rows and lines (`splitlines_rows`).
-/

namespace Machinery

variable {py : Python} {l : List Char}

namespace Python

theorem length_rdropWhile_le {α : Type*} (p : α → Bool) (l : List α) :
    (l.rdropWhile p).length ≤ l.length := by
  rw [List.rdropWhile, List.length_reverse]
  exact (List.dropWhile_sublist p).length_le.trans (List.length_reverse).le

/-- **A stripped text** has no blank at either end. -/
theorem strip_eq_self_iff : py.strip l = l ↔
    (∀ c ∈ l.head?, py.isSpace c = false) ∧ ∀ c ∈ l.getLast?, py.isSpace c = false := by
  refine ⟨fun h => ?_, fun h => strip_eq_self h.1 h.2⟩
  have hlen : (l.dropWhile py.isSpace).length = l.length := by
    refine le_antisymm (List.dropWhile_sublist _).length_le ?_
    calc l.length = (py.strip l).length := by rw [h]
      _ ≤ (l.dropWhile py.isSpace).length := length_rdropWhile_le _ _
  have hdrop : l.dropWhile py.isSpace = l := (List.dropWhile_sublist _).eq_of_length hlen
  refine ⟨fun c hc => ?_, fun c hc => ?_⟩
  · obtain ⟨l', rfl⟩ := List.head?_eq_some_iff.mp hc
    by_contra hspace
    rw [List.dropWhile_cons_of_pos (by simpa using hspace)] at hdrop
    have := (List.dropWhile_sublist (p := py.isSpace) (l := l')).length_le
    rw [hdrop, List.length_cons] at this
    omega
  · rw [strip, hdrop, List.rdropWhile_eq_self_iff] at h
    have hne : l ≠ [] := fun heq => by simp [heq] at hc
    rw [List.getLast?_eq_some_getLast hne] at hc
    obtain rfl := Option.some.inj hc
    simpa using h hne

end Python

/-- A text that stays one cell of one row when it is joined to others with `sep`. -/
structure Cell (py : Python) (sep : Char) (v : List Char) : Prop where
  separator : sep ∉ v
  line : ∀ c ∈ v, isLineBreak c = false
  strip : py.strip v = v
  ne_nil : v ≠ []

/-- A line of a text of lines. -/
structure Line (py : Python) (l : List Char) : Prop where
  line : ∀ c ∈ l, isLineBreak c = false
  strip : py.strip l = l
  ne_nil : l ≠ []

/-! ## Rows -/

section Row

variable {sep : Char}

theorem head?_intercalate {v : List Char} (hv : v ≠ []) (vs : List (List Char)) :
    ([sep].intercalate (v :: vs)).head? = v.head? := by
  rcases vs with _ | ⟨v', vs⟩
  · simp
  · rw [List.intercalate_cons_cons, List.append_assoc, List.head?_append_of_ne_nil _ hv]

theorem getLast?_intercalate (vs : List (List Char)) {v : List Char} (hv : v ≠ []) :
    ([sep].intercalate (vs ++ [v])).getLast? = v.getLast? := by
  induction vs with
  | nil => simp
  | cons v' vs ih =>
    obtain ⟨w, ws, hws⟩ := List.exists_cons_of_ne_nil (show vs ++ [v] ≠ [] by simp)
    have hne : [sep].intercalate (vs ++ [v]) ≠ [] := by
      intro hnil
      rw [hnil] at ih
      exact hv (List.getLast?_eq_none_iff.mp ih.symm)
    rw [List.cons_append, hws, List.intercalate_cons_cons, ← hws,
      List.getLast?_append_of_ne_nil _ hne, ih]

theorem mem_intercalate {vs : List (List Char)} {c : Char} (h : c ∈ [sep].intercalate vs) :
    c = sep ∨ ∃ v ∈ vs, c ∈ v := by
  induction vs with
  | nil => simp at h
  | cons v vs ih =>
    rcases vs with _ | ⟨v', vs⟩
    · rw [List.intercalate_singleton] at h
      exact .inr ⟨v, List.mem_cons_self, h⟩
    · rw [List.intercalate_cons_cons, List.append_assoc, List.mem_append, List.mem_append,
        List.mem_singleton] at h
      rcases h with h | h | h
      · exact .inr ⟨v, List.mem_cons_self, h⟩
      · exact .inl h
      · exact (ih h).imp_right fun ⟨w, hw, hc⟩ => ⟨w, List.mem_cons_of_mem _ hw, hc⟩

/-- **A row of cells is a line.** -/
theorem line_row {vs : List (List Char)} (hne : vs ≠ []) (h : ∀ v ∈ vs, Cell py sep v)
    (hsep : isLineBreak sep = false) : Line py ([sep].intercalate vs) := by
  obtain ⟨v, vs', rfl⟩ := List.exists_cons_of_ne_nil hne
  have hv : Cell py sep v := h v List.mem_cons_self
  have hhead : ([sep].intercalate (v :: vs')).head? = v.head? := head?_intercalate hv.ne_nil vs'
  refine ⟨fun c hc => ?_, Python.strip_eq_self_iff.mpr ⟨?_, ?_⟩, fun hnil => ?_⟩
  · rcases mem_intercalate hc with rfl | ⟨w, hw, hc⟩
    · exact hsep
    · exact (h w hw).line c hc
  · rw [hhead]
    exact (Python.strip_eq_self_iff.mp hv.strip).1
  · obtain ⟨ws, w, hws⟩ := (List.eq_nil_or_concat' (v :: vs')).resolve_left hne
    have hw : Cell py sep w := h w (by rw [hws]; simp)
    rw [hws, getLast?_intercalate ws hw.ne_nil]
    exact (Python.strip_eq_self_iff.mp hw.strip).2
  · rw [hnil] at hhead
    exact hv.ne_nil (List.head?_eq_none_iff.mp hhead.symm)

/-- **The cells of a row are found again.** -/
theorem split_row {vs : List (List Char)} (hne : vs ≠ []) (h : ∀ v ∈ vs, Cell py sep v) :
    (([sep].intercalate vs).splitOn sep).map py.strip = vs := by
  rw [List.splitOn_intercalate sep (fun v hv => (h v hv).separator) hne]
  exact (List.map_congr_left fun v hv => (h v hv).strip).trans (List.map_id vs)

end Row

/-! ## Lines -/

theorem splitlines_append {rest : List Char} (h : ∀ c ∈ l, isLineBreak c = false) :
    splitlines (l ++ '\n' :: rest) = l :: splitlines rest := by
  induction l with
  | nil => rw [List.nil_append, splitlines, if_neg (by simp), if_pos (by decide)]
  | cons c l ih =>
    rw [List.forall_mem_cons] at h
    have hr : ¬(c = '\r' ∧ (l ++ '\n' :: rest).head? = some '\n') := by
      rintro ⟨rfl, -⟩
      exact absurd h.1 (by decide)
    rw [List.cons_append, splitlines, if_neg hr, h.1, ih h.2]
    rfl

theorem splitlines_line (h : ∀ c ∈ l, isLineBreak c = false) (hne : l ≠ []) :
    splitlines l = [l] := by
  induction l with
  | nil => exact absurd rfl hne
  | cons c l ih =>
    rw [List.forall_mem_cons] at h
    have hr : ¬(c = '\r' ∧ l.head? = some '\n') := by
      rintro ⟨rfl, -⟩
      exact absurd h.1 (by decide)
    rw [splitlines, if_neg hr, h.1]
    rcases l with _ | ⟨c', l⟩
    · rfl
    · rw [ih h.2 (List.cons_ne_nil _ _)]
      rfl

/-- **The rows of a text are found again.** -/
theorem splitlines_rows {ls : List (List Char)} (h : ∀ l ∈ ls, Line py l) :
    splitlines (['\n'].intercalate ls) = ls := by
  induction ls with
  | nil => rfl
  | cons l ls ih =>
    rw [List.forall_mem_cons] at h
    rcases ls with _ | ⟨l', ls⟩
    · rw [List.intercalate_singleton, splitlines_line h.1.line h.1.ne_nil]
    · rw [List.intercalate_cons_cons, List.append_assoc, List.singleton_append,
        splitlines_append h.1.line, ih h.2]

end Machinery
