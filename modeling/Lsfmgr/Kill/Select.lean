import Mathlib
import Lsfmgr.Machinery.Decimal
import Lsfmgr.Kill.Targets

/-!
# Kill/Select — a target string selects the records it was made for

`_id_str` writes the id and the index of a record, `classify_targets` reads them, and `_matching`
compares them with a pool.  Of several targets each adds the records it selects.
-/

namespace Lsfmgr.Kill

open Machinery

section

variable (py : Python)

/-- `_id_str`; `none` where `str` raises. -/
def idStr? (jobId : ℕ) : Option ℕ → Option Text
  | some index => do
    let jobId ← py.str? jobId
    let index ← py.str? index
    some (jobId ++ '[' :: index ++ [']'])
  | none => py.str? jobId

/-- A target for the elements `lo` to `hi`. -/
def rangeStr? (jobId lo hi : ℕ) : Option Text := do
  let jobId ← py.str? jobId
  let lo ← py.str? lo
  let hi ← py.str? hi
  some (jobId ++ '[' :: lo ++ '-' :: hi ++ [']'])

end

/-- `_matching` on records. -/
def matchingRecords (pool : List JobRecord) (cls : Classes) : List JobRecord :=
  pool.filter fun r => cls.hit r.jobId r.arrayIndex

/-! ## What is written is read -/

variable {py : Python}

theorem isDecimal_of_isDigit (hpy : py.Lawful) {c : Char} (h : c.isDigit = true) :
    isDecimal py c = true := by
  rw [isDecimal, hpy.decimal_eq h]
  rfl

/-- The digits end where something else begins. -/
theorem span_decimals {l : Text} (rest : Text) (hl : ∀ c ∈ l, isDecimal py c = true)
    (hrest : ∀ c ∈ rest.head?, isDecimal py c = false) :
    (l ++ rest).takeWhile (isDecimal py) = l ∧ (l ++ rest).dropWhile (isDecimal py) = rest := by
  rw [List.takeWhile_append_of_pos hl, List.dropWhile_append_of_pos hl]
  cases rest with
  | nil => simp
  | cons c rest =>
    have hc : ¬ isDecimal py c = true := by simp [hrest c rfl]
    simp [List.takeWhile_cons_of_neg hc, List.dropWhile_cons_of_neg hc]

theorem isDecimal_symbol (hpy : py.Lawful) {c : Char}
    (h : c ∈ ['[', ']', '-', '<', '>', ' ', '\n']) :
    isDecimal py c = false := by
  rw [isDecimal, hpy.decimal_symbol c h]
  rfl

/-- The digits of a number before a symbol, or at the end. -/
theorem span_toDigits (hpy : py.Lawful) (n : ℕ) (rest : Text)
    (hrest : ∀ c ∈ rest.head?, c ∈ ['[', ']', '-', '<', '>', ' ', '\n']) :
    (Nat.toDigits 10 n ++ rest).takeWhile (isDecimal py) = Nat.toDigits 10 n ∧
      (Nat.toDigits 10 n ++ rest).dropWhile (isDecimal py) = rest :=
  span_decimals rest (fun _ hc => isDecimal_of_isDigit hpy (isDigit_of_mem_toDigits hc)) fun c hc =>
    isDecimal_symbol hpy (hrest c hc)

theorem readDigits_toDigits (hpy : py.Lawful) {n : ℕ}
    (h : py.withinLimit (Nat.toDigits 10 n).length = true) :
    readDigits py (Nat.toDigits 10 n) = .ok n := by
  rw [readDigits, hpy.mapM_decimal fun _ => isDigit_of_mem_toDigits, Option.bind_some,
    Python.number?_toDigits h]

theorem matchTarget_toDigits (hpy : py.Lawful) (n : ℕ) (rest : Text)
    (hrest : ∀ c ∈ rest.head?, c ∈ ['[', ']', '-', '<', '>', ' ', '\n']) :
    matchTarget py (Nat.toDigits 10 n ++ rest) = matchIndex py (Nat.toDigits 10 n) rest := by
  obtain ⟨htake, hdrop⟩ := span_toDigits hpy n rest hrest
  rw [matchTarget, htake, hdrop]
  exact if_neg Nat.toDigits_ne_nil

/-- A bracket that is not closed at once is no end. -/
theorem matchIndex_bracket {digits l : Text} (hl : l ≠ []) :
    matchIndex py digits ('[' :: l) = matchBracket py digits l := by
  cases l with
  | nil => exact absurd rfl hl
  | cons c l => simp [matchIndex, atEnd]

theorem matchTarget_id (hpy : py.Lawful) (n : ℕ) :
    matchTarget py (Nat.toDigits 10 n) = some (.id (Nat.toDigits 10 n)) := by
  have h := matchTarget_toDigits hpy n [] (by simp)
  rw [List.append_nil] at h
  rw [h]
  rfl

theorem matchTarget_element (hpy : py.Lawful) (n i : ℕ) :
    matchTarget py (Nat.toDigits 10 n ++ '[' :: (Nat.toDigits 10 i ++ [']'])) =
      some (.element (Nat.toDigits 10 n) (Nat.toDigits 10 i)) := by
  obtain ⟨htake, hdrop⟩ := span_toDigits hpy i [']'] (by simp)
  rw [matchTarget_toDigits hpy n _ (by simp), matchIndex_bracket (by simp),
    matchBracket, htake, hdrop]
  simp [atEnd, Nat.toDigits_ne_nil]

theorem matchTarget_range (hpy : py.Lawful) (n lo hi : ℕ) :
    matchTarget py (Nat.toDigits 10 n ++ '[' :: (Nat.toDigits 10 lo ++
        '-' :: (Nat.toDigits 10 hi ++ [']']))) =
      some (.range (Nat.toDigits 10 n) (Nat.toDigits 10 lo) (Nat.toDigits 10 hi)) := by
  obtain ⟨htake, hdrop⟩ := span_toDigits hpy lo ('-' :: (Nat.toDigits 10 hi ++ [']']))
    (by simp)
  obtain ⟨htake', hdrop'⟩ := span_toDigits hpy hi [']'] (by simp)
  rw [matchTarget_toDigits hpy n _ (by simp), matchIndex_bracket (by simp),
    matchBracket, htake, hdrop]
  simp [htake', hdrop', atEnd, Nat.toDigits_ne_nil]

/-- The target written for a job and an index. -/
def Selector.of (jobId : ℕ) : Option ℕ → Selector
  | some index => .exact jobId index
  | none => .whole jobId

theorem classifyTarget_idStr (hpy : py.Lawful) {pid : ℕ} {index : Option ℕ} {t : Text}
    (ht : idStr? py pid index = some t) :
    classifyTarget py t = .ok (some (.of pid index)) := by
  cases index with
  | none =>
    obtain ⟨rfl, hlimit⟩ := Python.str?_eq_some ht
    rw [classifyTarget, matchTarget_id hpy]
    simp [readDigits_toDigits hpy hlimit, Except.map, Selector.of]
  | some i =>
    simp only [idStr?, Option.bind_eq_bind, Option.bind_eq_some_iff, Option.some.injEq] at ht
    obtain ⟨d, hd, e, he, rfl⟩ := ht
    obtain ⟨rfl, hlimit⟩ := Python.str?_eq_some hd
    obtain ⟨rfl, hlimit'⟩ := Python.str?_eq_some he
    rw [List.append_assoc, List.cons_append, classifyTarget, matchTarget_element hpy]
    simp [readDigits_toDigits hpy hlimit, readDigits_toDigits hpy hlimit', Selector.of, bind,
      Except.bind]

theorem classifyTarget_rangeStr (hpy : py.Lawful) {pid lo hi : ℕ} {t : Text}
    (ht : rangeStr? py pid lo hi = some t) :
    classifyTarget py t = .ok (some (.range pid lo hi)) := by
  simp only [rangeStr?, Option.bind_eq_bind, Option.bind_eq_some_iff, Option.some.injEq] at ht
  obtain ⟨d, hd, e, he, f, hf, rfl⟩ := ht
  obtain ⟨rfl, hlimit⟩ := Python.str?_eq_some hd
  obtain ⟨rfl, hlimit'⟩ := Python.str?_eq_some he
  obtain ⟨rfl, hlimit''⟩ := Python.str?_eq_some hf
  have hassoc :
    Nat.toDigits 10 pid ++ '[' :: Nat.toDigits 10 lo ++ '-' :: Nat.toDigits 10 hi ++ [']']
      = Nat.toDigits 10 pid ++
          '[' :: (Nat.toDigits 10 lo ++ '-' :: (Nat.toDigits 10 hi ++ [']'])) := by
    simp
  rw [hassoc, classifyTarget, matchTarget_range hpy]
  simp [readDigits_toDigits hpy hlimit, readDigits_toDigits hpy hlimit',
    readDigits_toDigits hpy hlimit'', bind, Except.bind]

/-! ## Several targets -/

theorem hit_iff {cls : Classes} {pid : ℕ} {index : Option ℕ} :
    cls.hit (some pid) index = true ↔ pid ∈ cls.whole ∨ ∃ i ∈ index,
      (pid, i) ∈ cls.exact ∨ ∃ lo hi, (pid, lo, hi) ∈ cls.ranges ∧ lo ≤ i ∧ i ≤ hi := by
  simp only [Classes.hit]
  by_cases hw : pid ∈ cls.whole
  · simp [hw]
  · cases index with
    | none => simp [hw]
    | some i =>
      simp only [hw, if_false, Bool.or_eq_true, decide_eq_true_eq, List.any_eq_true, false_or,
        Option.mem_def, Option.some.injEq, exists_eq_left']
      refine or_congr_right ⟨?_, ?_⟩
      · rintro ⟨⟨p, lo, hi⟩, hmem, rfl, h⟩
        exact ⟨lo, hi, hmem, h⟩
      · rintro ⟨lo, hi, hmem, h⟩
        exact ⟨(pid, lo, hi), hmem, rfl, h⟩

@[simp] theorem Classes.hit_empty (pid index : Option ℕ) :
    Classes.hit {} pid index = false := by
  cases pid <;> cases index <;> rfl

/-- One target adds what it selects. -/
theorem hit_add {cls : Classes} (sel : Option Selector) (pid index : Option ℕ) :
    (cls.add sel).hit pid index = true ↔
      cls.hit pid index = true ∨ ∃ s, sel = some s ∧ pid = some s.jobId ∧
          s.selects index = true := by
  cases pid with
  | none => simp [Classes.hit]
  | some p =>
    rw [hit_iff, hit_iff]
    cases sel with
    | none => simp [Classes.add]
    | some s =>
      cases s with
      | whole q => grind [Classes.add, Selector.jobId, Selector.selects]
      | exact q i =>
        cases index with
        | none => simp [Classes.add, Selector.selects]
        | some k =>
          simp only [Classes.add, Selector.jobId, Selector.selects,
            Finset.mem_insert, Prod.mk.injEq]
          grind
      | range q lo hi =>
        cases index with
        | none => simp [Classes.add, Selector.selects]
        | some k =>
          have hrange :
            (∃ l h, ((p, l, h) ∈ cls.ranges ∨ p = q ∧ l = lo ∧ h = hi) ∧ l ≤ k ∧ k ≤ h) ↔
              (∃ l h, (p, l, h) ∈ cls.ranges ∧ l ≤ k ∧ k ≤ h) ∨ p = q ∧ lo ≤ k ∧ k ≤ hi := by
            simp only [or_and_right, exists_or, and_assoc, exists_and_left, exists_eq_left]
          simp only [Classes.add, Selector.jobId, Selector.selects, List.mem_append,
            List.mem_singleton, Prod.mk.injEq, Option.mem_def, Option.some.injEq, exists_eq_left',
            hrange, Option.any_some, decide_eq_true_eq]
          simp only [or_assoc]

/-- Some target selects the row. -/
def Selected (py : Python) (ts : List Text) (pid index : Option ℕ) : Prop :=
  ∃ t ∈ ts, ∃ s, classifyTarget py t = .ok (some s) ∧ pid = some s.jobId ∧ s.selects index = true

variable (py) in
/-- The classification of a list hits what some target of it selects, and raises if one raises. -/
theorem classify_foldlM (ts : List Text) (cls : Classes) :
    (∀ e, ts.foldlM (fun cls t => (classifyTarget py t).map cls.add) cls = .error e →
      ∃ t ∈ ts, (classifyTarget py t).isOk = false) ∧
    ∀ cls', ts.foldlM (fun cls t => (classifyTarget py t).map cls.add) cls = .ok cls' →
      (∀ t ∈ ts, (classifyTarget py t).isOk = true) ∧
      ∀ pid index, cls'.hit pid index = true ↔
        cls.hit pid index = true ∨ Selected py ts pid index := by
  induction ts generalizing cls with
  | nil =>
    refine ⟨fun e h => (by cases h), fun cls' h => ?_⟩
    obtain rfl : cls = cls' := Except.ok.inj h
    exact ⟨by simp, fun pid index => by simp [Selected]⟩
  | cons t ts ih =>
    rw [List.foldlM_cons]
    cases hc : classifyTarget py t with
    | error e =>
      refine ⟨fun _ _ => ⟨t, List.mem_cons_self, by rw [hc]; rfl⟩, fun cls' h => ?_⟩
      simp [Except.map, bind, Except.bind] at h
    | ok sel =>
      obtain ⟨herror, hok⟩ := ih (cls.add sel)
      refine ⟨fun e h => ?_, fun cls' h => ?_⟩
      · obtain ⟨u, hu, hf⟩ := herror e h
        exact ⟨u, List.mem_cons_of_mem _ hu, hf⟩
      · obtain ⟨hall, hhit⟩ := hok cls' h
        refine ⟨List.forall_mem_cons.mpr ⟨by rw [hc]; rfl, hall⟩, fun pid index => ?_⟩
        rw [hhit, hit_add, or_assoc]
        simp only [Selected, List.mem_cons, exists_eq_or_imp, hc, Except.ok.injEq]

theorem hit_classifyTargets {ts : List Text} {cls : Classes} (h : classifyTargets py ts = .ok cls)
    (pid index : Option ℕ) : cls.hit pid index = true ↔ Selected py ts pid index := by
  rw [((classify_foldlM py ts {}).2 cls h).2 pid index]
  cases pid <;> cases index <;> simp [Classes.hit]

theorem isOk_classifyTargets {ts : List Text} :
    (classifyTargets py ts).isOk = true ↔ ∀ t ∈ ts, (classifyTarget py t).isOk = true := by
  obtain ⟨herror, hok⟩ := classify_foldlM py ts {}
  cases h : classifyTargets py ts with
  | error e =>
    obtain ⟨t, ht, hf⟩ := herror e h
    refine ⟨fun hok => (by cases hok), fun hall => ?_⟩
    rw [hall t ht] at hf
    cases hf
  | ok cls => exact ⟨fun _ => (hok cls h).1, fun _ => rfl⟩

/-- **Targets select exactly their records.**  The target of a record selects the records of its
job, and if it has an index, those of them with this index; a range selects the elements in it; and
together, two lists of targets select what one of them selects. -/
theorem targets_select (hpy : py.Lawful) (pool : List JobRecord) :
    (∀ (r : JobRecord) (pid : ℕ) (t : Text), r.jobId = some pid →
      idStr? py pid r.arrayIndex = some t →
        ∃ cls, classifyTargets py [t] = .ok cls ∧ matchingRecords pool cls = pool.filter fun x =>
          x.jobId = some pid ∧ (r.arrayIndex = none ∨ x.arrayIndex = r.arrayIndex)) ∧
    (∀ (pid lo hi : ℕ) (t : Text), rangeStr? py pid lo hi = some t →
      ∃ cls, classifyTargets py [t] = .ok cls ∧ matchingRecords pool cls = pool.filter fun x =>
        x.jobId = some pid ∧ ∃ i ∈ x.arrayIndex, lo ≤ i ∧ i ≤ hi) ∧
    ∀ (ts ts' both : List Text), (∀ t, t ∈ both ↔ t ∈ ts ∨ t ∈ ts') →
      ((classifyTargets py both).isOk = true ↔
        (classifyTargets py ts).isOk = true ∧ (classifyTargets py ts').isOk = true) ∧
      ∀ cls cls' cls'', classifyTargets py ts = .ok cls → classifyTargets py ts' = .ok cls' →
        classifyTargets py both = .ok cls'' → matchingRecords pool cls'' = pool.filter fun x =>
          x ∈ matchingRecords pool cls ∨ x ∈ matchingRecords pool cls' := by
  refine ⟨fun r pid t _ ht => ⟨_, classifyTargets_singleton (classifyTarget_idStr hpy ht), ?_⟩,
    fun pid lo hi t ht => ⟨_, classifyTargets_singleton (classifyTarget_rangeStr hpy ht), ?_⟩,
    fun ts ts' both hboth => ⟨?_, fun cls cls' cls'' h h' h'' => ?_⟩⟩
  · refine List.filter_congr fun x _ => Bool.eq_iff_iff.mpr ?_
    rw [hit_add, decide_eq_true_eq]
    cases hi : r.arrayIndex <;>
      simp [Selector.of, Selector.jobId, Selector.selects, Classes.hit_empty]
  · refine List.filter_congr fun x _ => Bool.eq_iff_iff.mpr ?_
    rw [hit_add, decide_eq_true_eq]
    cases hx : x.arrayIndex <;>
      simp [Selector.jobId, Selector.selects, Classes.hit_empty]
  · simp only [isOk_classifyTargets, hboth, or_imp, forall_and]
  · refine List.filter_congr fun x hx => Bool.eq_iff_iff.mpr ?_
    rw [decide_eq_true_eq, matchingRecords, matchingRecords, List.mem_filter, List.mem_filter,
      hit_classifyTargets h, hit_classifyTargets h', hit_classifyTargets h'']
    simp only [hx, true_and, Selected, hboth, or_and_right, exists_or]

/-- Two elements of an array, and the target of the second. -/
theorem targets_select_element :
    let element (i : ℕ) : JobRecord :=
      { jobId := some 12, arrayIndex := some i, jobsetId := "s", jobKey := "k", generation := 0 }
    ∃ cls, classifyTargets Python.ascii ["12[3]".toList] = .ok cls ∧
      matchingRecords [element 2, element 3] cls = [element 3] := by
  intro element
  obtain ⟨cls, hcls, hmatch⟩ := (targets_select Python.ascii_lawful [element 2, element 3]).1
    (element 3) 12 "12[3]".toList rfl (by decide)
  exact ⟨cls, hcls, hmatch.trans (by decide)⟩

end Lsfmgr.Kill
