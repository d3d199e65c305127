import Mathlib
import Lsfmgr.Machinery.Calendar
import Lsfmgr.Machinery.Decimal

/-!
# Machinery/Strptime — reading back what `strftime` wrote

A format is read directive by directive.  A number of two digits can also be read as its first
digit, but the separator that follows is no digit, so that way leads nowhere: one step of the reader
is an equation between the matches (`readFormat_hour` and its siblings).  A day padded with a blank
is found in two ways that agree, so the step over a day is about the first match.
-/

namespace Machinery

/-- What the tables of every interpreter say of the visible ASCII characters. -/
structure Python.AsciiTables (py : Python) : Prop extends py.Lawful where
  isSpace_visible : ∀ c : Char, '!' ≤ c → c ≤ '~' → py.isSpace c = false
  decimal_visible : ∀ c : Char, '!' ≤ c → c ≤ '~' → c.isDigit = false → py.decimal? c = none
  lower_names : ∀ l : List Char, (l.all fun c => c.isLower || c = '_') = true → py.lower l = l

theorem Python.ascii_tables : Python.ascii.AsciiTables where
  toLawful := Python.ascii_lawful
  isSpace_visible c h _ := by
    have hne (d : Char) (hd : d < '!') : c ≠ d :=
      fun heq => absurd h (by rw [heq]; exact not_le.mpr hd)
    simp [Python.ascii, hne ' ' (by decide), hne '\t' (by decide), hne '\n' (by decide),
      hne '\r' (by decide)]
  decimal_visible c _ _ hd := by simp [Python.ascii, hd]
  lower_names l h := by
    refine (List.map_congr_left fun c hc => ?_).trans (List.map_id l)
    have hname := List.all_eq_true.mp h c hc
    rw [Bool.or_eq_true, decide_eq_true_eq] at hname
    rcases hname with hl | rfl
    · simp only [Char.isLower, ge_iff_le, Bool.and_eq_true, decide_eq_true_eq] at hl
      rw [Char.toLower, dif_neg, id]
      rintro ⟨-, hz⟩
      exact absurd (UInt32.le_trans hl.1 hz) (by decide)
    · decide

/-! ## Written numbers and months -/

/-- `%H` and its like: two digits, a small number padded with `pad`. -/
def pad2 (pad : Char) (n : ℕ) : List Char :=
  if n < 10 then [pad, Nat.digitChar n] else [Nat.digitChar (n / 10), Nat.digitChar (n % 10)]

theorem pad2_zero (n : ℕ) :
    pad2 '0' n = [Nat.digitChar (n / 10), Nat.digitChar (n % 10)] := by
  rw [pad2]
  split
  case isTrue h => rw [Nat.div_eq_of_lt h, Nat.mod_eq_of_lt h]; rfl
  case isFalse => rfl

/-- `%b` as it is written. -/
def monthAbbr (m : ℕ) : List Char :=
  ((["Jan", "Feb", "Mar", "Apr", "May", "Jun", "Jul", "Aug", "Sep", "Oct", "Nov", "Dec"].map
    String.toList)[m - 1]?).getD []

theorem digitIn_digitChar {lo hi d : ℕ} (_ : hi < 10) (hd : d < 10) :
    digitIn lo hi (Nat.digitChar d) = if lo ≤ d ∧ d ≤ hi then some d else none := by
  have h0 : '0'.toNat = 48 := rfl
  rw [digitIn, Nat.toNat_digitChar_of_lt_ten hd, h0]
  have hiff : lo + 48 ≤ 48 + d ∧ 48 + d ≤ hi + 48 ↔ lo ≤ d ∧ d ≤ hi := by omega
  simp only [hiff, Nat.add_sub_cancel_left]

theorem digitIn_eq_none {lo hi : ℕ} {c : Char} (hhi : hi < 10) (hc : c.isDigit = false) :
    digitIn lo hi c = none := by
  rw [digitIn, if_neg]
  rintro ⟨h₁, h₂⟩
  have h0 : '0'.toNat = 48 := rfl
  have h9 : '9'.toNat = 57 := rfl
  have : c.isDigit = true := by
    simp only [Char.isDigit, ge_iff_le, Bool.and_eq_true, decide_eq_true_eq]
    refine ⟨?_, ?_⟩
    · show '0'.toNat ≤ c.toNat
      omega
    · show c.toNat ≤ '9'.toNat
      omega
  rw [hc] at this
  cases this

theorem digitIn_blank {lo hi : ℕ} (hhi : hi < 10) : digitIn lo hi ' ' = none :=
  digitIn_eq_none hhi (by decide)

namespace Python

variable {py : Python}

namespace AsciiTables

variable (hpy : py.AsciiTables)

include hpy

theorem isSpace_digitChar {d : ℕ} (hd : d < 10) : py.isSpace (Nat.digitChar d) = false := by
  refine hpy.isSpace_visible _ ?_ ?_ <;> interval_cases d <;> decide

theorem blanks_one {c : Char} (hc : py.isSpace c = false) (l : List Char) :
    py.blanks (' ' :: c :: l) = [c :: l] := by
  simp [blanks, hpy.isSpace_blank, hc]

end AsciiTables

theorem blanks_visible {c : Char} (hc : py.isSpace c = false) (l : List Char) :
    py.blanks (c :: l) = [] := by
  simp [blanks, hc]

/-- A text with no blank at either end is stripped. -/
theorem strip_eq_self {l : List Char} (hhead : ∀ c ∈ l.head?, py.isSpace c = false)
    (hlast : ∀ c ∈ l.getLast?, py.isSpace c = false) : py.strip l = l := by
  have hdrop : l.dropWhile py.isSpace = l := by
    rcases l with _ | ⟨c, l⟩
    · rfl
    · exact List.dropWhile_cons_of_neg (by simp [hhead c rfl])
  rw [strip, hdrop, List.rdropWhile_eq_self_iff]
  intro hne
  simp [hlast _ (List.getLast?_eq_some_getLast hne)]

theorem strptimeFields_of_head {l : List Char} {fmt : List Directive} {f : TimeFields}
    (h : (py.readFormat fmt {} l).head? = some (f, [])) :
    py.strptimeFields l fmt = if f.Valid then some f else none := by
  obtain ⟨ms, hms⟩ := List.head?_eq_some_iff.mp h
  rw [strptimeFields, hms]

theorem strptimeFields_of_none {l : List Char} {fmt : List Directive}
    (h : (py.readFormat fmt {} l).head? = none) : py.strptimeFields l fmt = none := by
  rw [strptimeFields, List.head?_eq_none_iff.mp h]

/-! ## One step of the reader -/

section Steps

variable (hpy : py.AsciiTables) (ds : List Directive) (f : TimeFields) (l : List Char)

theorem readFormat_monthName {m : ℕ} (h₁ : 1 ≤ m) (h₂ : m ≤ 12) :
    py.readFormat (.monthName :: ds) f (monthAbbr m ++ l)
      = py.readFormat ds { f with month := m } l := by
  have hread : readMonthName (monthAbbr m ++ l) = [(m, l)] := by interval_cases m <;> rfl
  simp only [readFormat, readDirective, hread, List.flatMap_singleton]

include hpy

theorem readFormat_space {c : Char} (hc : py.isSpace c = false) :
    py.readFormat (.space :: ds) f (' ' :: c :: l) = py.readFormat ds f (c :: l) := by
  simp [readFormat, readDirective, hpy.blanks_one hc]

omit hpy in
theorem readFormat_space_visible {c : Char} (hc : py.isSpace c = false) :
    py.readFormat (.space :: ds) f (c :: l) = [] := by
  simp [readFormat, readDirective, blanks_visible hc]

omit hpy in
theorem readFormat_space_nil : py.readFormat (.space :: ds) f [] = [] := by
  simp [readFormat, readDirective, blanks]

omit hpy in
theorem readFormat_literal (c : Char) :
    py.readFormat (.literal c :: ds) f (c :: l) = py.readFormat ds f l := by
  simp [readFormat, readDirective]

omit hpy in
theorem readFormat_literal_ne {c c' : Char} (h : c' ≠ c) :
    py.readFormat (.literal c :: ds) f (c' :: l) = [] := by
  simp [readFormat, readDirective, h]

/-- A number of two digits, or its first digit. -/
theorem readDirective_hour {a b : ℕ} (ha : a < 10) (hb : b < 10) (h : 10 * a + b ≤ 23) :
    py.readDirective .hour (Nat.digitChar a :: Nat.digitChar b :: l)
      = [(10 * a + b, l), (a, Nat.digitChar b :: l)] := by
  simp only [readDirective, two, andThen, one, digitIn_digitChar (by decide : 3 < 10) hb,
    digitIn_digitChar (by decide : 2 < 10) ha, digitIn_digitChar (by decide : 1 < 10) ha,
    hpy.decimal_digitChar _ ha, hpy.decimal_digitChar _ hb]
  rcases (by omega : a = 2 ∧ b ≤ 3 ∨ a ≤ 1) with ⟨rfl, hb'⟩ | ha'
  · simp [hb']
  · simp [ha', show ¬(2 ≤ a ∧ a ≤ 2) by omega]

theorem readDirective_minute {a b : ℕ} (ha : a ≤ 5) (hb : b < 10) :
    py.readDirective .minute (Nat.digitChar a :: Nat.digitChar b :: l)
      = [(10 * a + b, l), (a, Nat.digitChar b :: l)] := by
  have ha' : a < 10 := by omega
  simp [readDirective, two, andThen, one, digitIn_digitChar (by decide : 5 < 10) ha', ha,
    hpy.decimal_digitChar _ ha', hpy.decimal_digitChar _ hb]

theorem readDirective_second {a b : ℕ} (ha : a ≤ 5) (hb : b < 10) :
    py.readDirective .second (Nat.digitChar a :: Nat.digitChar b :: l)
      = [(10 * a + b, l), (a, Nat.digitChar b :: l)] := by
  have ha' : a < 10 := by omega
  simp only [readDirective, two, andThen, one, digitIn_digitChar (by decide : 5 < 10) ha',
    digitIn_digitChar (by decide : 6 < 10) ha', hpy.decimal_digitChar _ ha',
    hpy.decimal_digitChar _ hb]
  simp [ha, show ¬(6 ≤ a ∧ a ≤ 6) by omega]

/-- A day of two digits, or its first digit unless that is a zero. -/
theorem readDirective_day {a b : ℕ} (ha : a < 10) (hb : b < 10) (h₁ : 1 ≤ 10 * a + b)
    (h₂ : 10 * a + b ≤ 31) :
    py.readDirective .day (Nat.digitChar a :: Nat.digitChar b :: l)
      = (10 * a + b, l) :: (if a = 0 then [] else [(a, Nat.digitChar b :: l)]) := by
  have hne : Nat.digitChar a ≠ ' ' := by interval_cases a <;> decide
  simp only [readDirective, two, andThen, one, digitIn_digitChar (by decide : 3 < 10) ha,
    digitIn_digitChar (by decide : 1 < 10) hb, digitIn_digitChar (by decide : 2 < 10) ha,
    digitIn_digitChar (by decide : 0 < 10) ha, digitIn_digitChar (by decide : 9 < 10) hb,
    digitIn_digitChar (by decide : 9 < 10) ha, hpy.decimal_digitChar _ hb]
  have hb9 : b ≤ 9 := by omega
  rcases (by omega : a = 0 ∧ 1 ≤ b ∨ (a = 1 ∨ a = 2) ∨ a = 3 ∧ b ≤ 1) with
    ⟨rfl, hb'⟩ | (rfl | rfl) | ⟨rfl, hb'⟩
  · simp [hb', hb9]
  · simp [hb9]
  · simp [hb9]
  · simp [hb']

/-- A day of one digit. -/
theorem readDirective_day_one {b : ℕ} (hb : b < 10) (h₁ : 1 ≤ b) :
    py.readDirective .day (Nat.digitChar b :: ' ' :: l) = [(b, ' ' :: l)] := by
  have hne : Nat.digitChar b ≠ ' ' := by interval_cases b <;> decide
  have hblank : py.decimal? ' ' = none := hpy.decimal_symbol ' ' (by simp)
  have hnil : ∀ o : Option ℕ, o.toList.flatMap (fun _ => ([] : List (ℕ × List Char))) = [] := by
    rintro (_ | _) <;> rfl
  simp only [readDirective, two, andThen, one, digitIn_digitChar (by decide : 3 < 10) hb,
    digitIn_digitChar (by decide : 2 < 10) hb, digitIn_digitChar (by decide : 0 < 10) hb,
    digitIn_digitChar (by decide : 9 < 10) hb, digitIn_blank (by decide : 1 < 10),
    digitIn_blank (by decide : 9 < 10), hblank]
  simp [h₁, show b ≤ 9 by omega, hnil]

omit hpy in
/-- A day of one digit after its blank. -/
theorem readDirective_day_blank {b : ℕ} (hb : b < 10) (h₁ : 1 ≤ b) :
    py.readDirective .day (' ' :: Nat.digitChar b :: l) = [(b, l)] := by
  simp only [readDirective, two, andThen, one, digitIn_digitChar (by decide : 9 < 10) hb,
    digitIn_blank (by decide : 3 < 10), digitIn_blank (by decide : 2 < 10),
    digitIn_blank (by decide : 0 < 10), digitIn_blank (by decide : 9 < 10)]
  simp [h₁, show b ≤ 9 by omega]

/-- **A day between blanks**, padded with a blank or a zero: the first way to read it decides. -/
theorem head?_readFormat_day {pad : Char} (hpad : pad = ' ' ∨ pad = '0') {n : ℕ} (h₁ : 1 ≤ n)
    (h₂ : n ≤ 31) {c : Char} (hc : py.isSpace c = false) :
    (py.readFormat (.space :: .day :: .space :: ds) f (' ' :: (pad2 pad n ++ ' ' :: c :: l))).head?
      = (py.readFormat ds { f with day := n } (c :: l)).head? := by
  have hnext : ∀ f', py.readFormat (.space :: ds) f' (' ' :: c :: l)
      = py.readFormat ds f' (c :: l) := fun f' => readFormat_space hpy ds f' l hc
  have htwo : ∀ a b, a < 10 → b < 10 → 10 * a + b = n →
      (py.readFormat (.space :: .day :: .space :: ds) f
        (' ' :: Nat.digitChar a :: Nat.digitChar b :: ' ' :: c :: l)).head?
        = (py.readFormat ds { f with day := n } (c :: l)).head? := by
    intro a b ha hb hn
    rw [readFormat_space hpy _ _ _ (hpy.isSpace_digitChar ha), readFormat,
      readDirective_day hpy _ ha hb (by omega) (by omega), hn]
    by_cases h0 : a = 0
    · simp [h0, hnext]
    · simp [h0, hnext, readFormat_space_visible ds _ _ (hpy.isSpace_digitChar hb)]
  rw [pad2]
  split
  case isFalse => exact htwo _ _ (by omega) (Nat.mod_lt _ (by decide)) (Nat.div_add_mod n 10)
  case isTrue hlt =>
    rcases hpad with rfl | rfl
    case inr => exact htwo 0 n (by decide) hlt (by omega)
    -- the blanks may leave the padding to the day
    have hblanks : py.blanks (' ' :: ' ' :: Nat.digitChar n :: ' ' :: c :: l)
        = [Nat.digitChar n :: ' ' :: c :: l, ' ' :: Nat.digitChar n :: ' ' :: c :: l] := by
      simp [blanks, hpy.isSpace_blank, hpy.isSpace_digitChar hlt]
    have hday : ∀ t, py.readDirective .day t = [(n, ' ' :: c :: l)] →
        py.readFormat (.day :: .space :: ds) f t = py.readFormat ds { f with day := n } (c :: l) :=
      fun t ht => by simp [readFormat.eq_def _ (Directive.day :: _), ht, hnext]
    rw [readFormat, readDirective]
    simp only [List.cons_append, List.nil_append, hblanks, List.map_cons, List.map_nil,
      List.flatMap_cons, List.flatMap_nil, List.append_nil,
      hday _ (readDirective_day_one hpy _ hlt h₁), hday _ (readDirective_day_blank _ hlt h₁)]
    rcases py.readFormat ds { f with day := n } (c :: l) with _ | ⟨x, xs⟩ <;> rfl

/-- The hour, up to the colon. -/
theorem readFormat_hour {n : ℕ} (hn : n ≤ 23) :
    py.readFormat (.hour :: .literal ':' :: ds) f (pad2 '0' n ++ ':' :: l)
      = py.readFormat ds { f with hour := n } l := by
  have hb : n % 10 < 10 := Nat.mod_lt _ (by decide)
  have hcolon : Nat.digitChar (n % 10) ≠ ':' := by
    generalize n % 10 = b at hb
    interval_cases b <;> decide
  have hsum : 10 * (n / 10) + n % 10 = n := Nat.div_add_mod n 10
  rw [pad2_zero, readFormat]
  simp only [List.cons_append, List.nil_append, readDirective_hour hpy _ (by omega : n / 10 < 10) hb
    (by omega), List.flatMap_cons, List.flatMap_nil, readFormat_literal,
    readFormat_literal_ne ds _ _ hcolon, List.append_nil, hsum]

/-- The minute, up to a colon. -/
theorem readFormat_minute {n : ℕ} (hn : n ≤ 59) :
    py.readFormat (.minute :: .literal ':' :: ds) f (pad2 '0' n ++ ':' :: l)
      = py.readFormat ds { f with minute := n } l := by
  have hb : n % 10 < 10 := Nat.mod_lt _ (by decide)
  have hcolon : Nat.digitChar (n % 10) ≠ ':' := by
    generalize n % 10 = b at hb
    interval_cases b <;> decide
  have hsum : 10 * (n / 10) + n % 10 = n := Nat.div_add_mod n 10
  rw [pad2_zero, readFormat]
  simp only [List.cons_append, List.nil_append,
    readDirective_minute hpy _ (by omega : n / 10 ≤ 5) hb, List.flatMap_cons, List.flatMap_nil,
    readFormat_literal,
    readFormat_literal_ne ds _ _ hcolon, List.append_nil, hsum]

/-- Where a blank is due, a colon ends the match. -/
theorem readFormat_minute_space {n : ℕ} (hn : n ≤ 59) :
    py.readFormat (.minute :: .space :: ds) f (pad2 '0' n ++ ':' :: l) = [] := by
  have hb : n % 10 < 10 := Nat.mod_lt _ (by decide)
  rw [pad2_zero, readFormat]
  simp only [List.cons_append, List.nil_append,
    readDirective_minute hpy _ (by omega : n / 10 ≤ 5) hb, List.flatMap_cons,
    List.flatMap_nil, List.append_nil,
    readFormat_space_visible ds _ _ (hpy.isSpace_digitChar hb),
    readFormat_space_visible ds _ _ (hpy.isSpace_visible ':' (by decide) (by decide))]

/-- The second, up to a blank. -/
theorem readFormat_second {n : ℕ} (hn : n ≤ 59) {c : Char} (hc : py.isSpace c = false) :
    py.readFormat (.second :: .space :: ds) f (pad2 '0' n ++ ' ' :: c :: l)
      = py.readFormat ds { f with second := n } (c :: l) := by
  have hb : n % 10 < 10 := Nat.mod_lt _ (by decide)
  have hsum : 10 * (n / 10) + n % 10 = n := Nat.div_add_mod n 10
  rw [pad2_zero, readFormat]
  simp only [List.cons_append, List.nil_append,
    readDirective_second hpy _ (by omega : n / 10 ≤ 5) hb, List.flatMap_cons, List.flatMap_nil,
    List.append_nil, readFormat_space hpy ds _ _ hc,
    readFormat_space_visible ds _ _ (hpy.isSpace_digitChar hb), hsum]

/-- Where a blank is due, the end of the text ends the match. -/
theorem readFormat_second_end {n : ℕ} (hn : n ≤ 59) :
    py.readFormat (.second :: .space :: ds) f (pad2 '0' n) = [] := by
  have hb : n % 10 < 10 := Nat.mod_lt _ (by decide)
  rw [pad2_zero, readFormat, readDirective_second hpy _ (by omega : n / 10 ≤ 5) hb]
  simp only [List.flatMap_cons, List.flatMap_nil, List.append_nil, readFormat_space_nil,
    readFormat_space_visible ds _ _ (hpy.isSpace_digitChar hb)]

/-- A year of four digits at the end. -/
theorem readFormat_year {y : ℕ} (h₁ : 1000 ≤ y) (h₂ : y ≤ 9999) :
    py.readFormat [.year] f (Nat.toDigits 10 y) = [({ f with year := y }, [])] := by
  have hdigits :
    Nat.toDigits 10 y = [Nat.digitChar (y / 10 / 10 / 10), Nat.digitChar (y / 10 / 10 % 10),
      Nat.digitChar (y / 10 % 10), Nat.digitChar (y % 10)] := by
    rw [Nat.toDigits_of_base_le (by decide) (by omega),
      Nat.toDigits_of_base_le (by decide) (by omega),
      Nat.toDigits_of_base_le (by decide) (by omega), Nat.toDigits_of_lt_base (by omega)]
    rfl
  have ha : y / 10 / 10 / 10 < 10 := by omega
  have hmod : ∀ n, n % 10 < 10 := fun n => Nat.mod_lt _ (by decide)
  rw [hdigits]
  simp only [readFormat, readDirective, two, andThen, one, hpy.decimal_digitChar _ ha,
    hpy.decimal_digitChar _ (hmod _), Option.toList_some, List.flatMap_cons, List.flatMap_nil,
    List.map_cons, List.map_nil, List.append_nil]
  have hsum : 1000 * (y / 10 / 10 / 10) + (100 * (y / 10 / 10 % 10) + (10 * (y / 10 % 10) + y % 10))
      = y := by omega
  rw [hsum]

omit hpy in
/-- A format that begins with the year reads no text that begins otherwise. -/
theorem readFormat_year_visible {c : Char} (hc : py.decimal? c = none) :
    py.readFormat (.year :: ds) f (c :: l) = [] := by
  simp [readFormat, readDirective, andThen, hc]

end Steps

end Python

end Machinery
