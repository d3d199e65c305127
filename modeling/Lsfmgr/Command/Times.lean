import Mathlib
import Lsfmgr.Command.Chunk
import Lsfmgr.Machinery.Dict
import Lsfmgr.Machinery.Strptime

/-!
# Command/Times — `_parse_lsf_time`, and the year LSF leaves out

A time without a year is read with this year, or with the last one where that day is missing this
year, and moved back a year when it would lie more than a day ahead.  That gives back every time of
the last 364 days: the same day of the year after is more than a day ahead, and a 29th of February
is in one of two years only.
-/

namespace Lsfmgr.Command

open Machinery

/-! ## The formats -/

/-- `_LSF_TIME_FORMATS`, and whether the format has the year. -/
def lsfTimeFormats : List (List Directive × Bool) :=
  let minutes := [.monthName, .space, .day, .space, .hour, .literal ':', .minute]
  [([.year, .literal '-', .month, .literal '-', .day, .space, .hour, .literal ':', .minute,
      .literal ':', .second], true),
    (minutes ++ [.literal ':', .second, .space, .year], true),
    (minutes ++ [.space, .year], true),
    (minutes ++ [.literal ':', .second], false),
    (minutes, false)]

/-- The texts a format is tried on: one without the year is read with this year and the last one. -/
def attempts (s : Text) (year : ℕ) (format : List Directive × Bool) :
    List (Text × List Directive) :=
  if format.2 then [(s, format.1)]
  else [year, year - 1].map fun y => (s ++ ' ' :: Nat.toDigits 10 y, format.1 ++ [.space, .year])

section

variable (py : Python)

/-- `re.sub(r"\s+[A-Z]$", "", s)` of a stripped text, whose `$` is its end. -/
def dropSuffix (s : Text) : Text :=
  match s.reverse with
  | c :: l =>
    if 'A' ≤ c ∧ c ≤ 'Z' ∧ l.head?.any py.isSpace then (l.dropWhile py.isSpace).reverse else s
  | [] => s

/-- The body of `_parse_lsf_time_cached`: the fields and whether the year was left out. -/
def readLsfTime (s : Text) (year : ℕ) : Option (TimeFields × Bool) :=
  if [' ', 'E'] <:+ s then none
  else
    let s := py.strip (dropSuffix py s)
    if s = [] ∨ s = ['-'] then none
    else lsfTimeFormats.findSome? fun format =>
      (attempts s year format).findSome? fun (text, f) =>
        (py.strptimeFields text f).map fun dt => (dt, !format.2)

/-! ## The cache -/

/-- `lru_cache`: what was computed for the arguments, those used last at the end. -/
abbrev TimeCache : Type := Dict (Text × ℕ) (Option (TimeFields × Bool))

/-- `maxsize` -/
def cacheSize : ℕ := 65536

/-- The entry that was not used for the longest time makes place. -/
def evict (cache : TimeCache) : TimeCache :=
  match cache.keys with
  | k :: _ => if cacheSize ≤ cache.keys.length then cache.erase k else cache
  | [] => cache

def parseLsfTimeCached (cache : TimeCache) (s : Text) (year : ℕ) :
    Option (TimeFields × Bool) × TimeCache :=
  match cache.get? (s, year) with
  | some parsed => (parsed, (cache.erase (s, year)).set (s, year) parsed)
  | none =>
    let parsed := readLsfTime py s year
    (parsed, (evict cache).set (s, year) parsed)

/-! ## The year -/

/-- `datetime.now()` -/
structure Moment where
  fields : TimeFields
  micros : ℕ := 0

def Moment.Valid (now : Moment) : Prop := now.fields.Valid ∧ now.micros < 1000000

instance decidableMoment (now : Moment) : Decidable now.Valid := inferInstanceAs (Decidable (_ ∧ _))

def Moment.toTime (now : Moment) : ℤ := now.fields.toTime + now.micros

/-- `dt.replace(year=dt.year - 1)`; `none` where it raises. -/
def lastYear (dt : TimeFields) : Option TimeFields :=
  let dt' := { dt with year := dt.year - 1 }
  if dt'.Valid then some dt' else none

/-- A time without a year that is more than `_LSF_TIME_FUTURE_TOLERANCE` ahead is of last year; the
limit may lie beyond the times a `datetime` can hold. -/
def placeYear (now : Moment) : Option (TimeFields × Bool) → Except PyError (Option TimeFields)
  | none => .ok none
  | some (dt, yearless) =>
    if yearless then
      if InYears (now.toTime + dayMicros) then
        .ok (if now.toTime + dayMicros < dt.toTime then lastYear dt else some dt)
      else .error .overflowError
    else .ok (some dt)

/-- `_parse_lsf_time` -/
def parseLsfTime (cache : TimeCache) (s : Text) (now : Moment) :
    Except PyError (Option TimeFields) × TimeCache :=
  let (parsed, cache) := parseLsfTimeCached py cache (py.strip s) now.fields.year
  (placeYear now parsed, cache)

/-- The cache after a sequence of calls. -/
def cacheAfter (calls : List (Text × Moment)) : TimeCache :=
  calls.foldl (fun cache call => (parseLsfTime py cache call.1 call.2).2) ∅

end

/-! ## What LSF writes -/

/-- `Mon dd HH:MM:SS`, the day padded with `pad`. -/
def render (pad : Char) (t : TimeFields) : Text :=
  monthAbbr t.month ++ ' ' :: (pad2 pad t.day ++ ' ' :: (pad2 '0' t.hour ++ ':' ::
    (pad2 '0' t.minute ++ ':' :: pad2 '0' t.second)))

/-- What may follow a time: nothing, or blanks and a letter other than `E`. -/
def Suffix (suffix : Text) : Prop :=
  suffix = [] ∨ ∃ n c, 'A' ≤ c ∧ c ≤ 'Z' ∧ c ≠ 'E' ∧ suffix = List.replicate (n + 1) ' ' ++ [c]

/-- The fields are within the ranges of their directives; the day need not be in the month. -/
structure InRange (t : TimeFields) : Prop where
  month : 1 ≤ t.month ∧ t.month ≤ 12
  day : 1 ≤ t.day ∧ t.day ≤ 31
  hour : t.hour ≤ 23
  minute : t.minute ≤ 59
  second : t.second ≤ 59

/-- The format a time is read with whose year was left out. -/
def withYear : List Directive :=
  [.monthName, .space, .day, .space, .hour, .literal ':', .minute, .literal ':', .second, .space,
    .year]

/-- **With the year written behind it, `strptime` accepts exactly the dates of that year.** -/
def ReadsYear (py : Python) (y : ℕ) : Prop :=
  ∀ pad t, (pad = ' ' ∨ pad = '0') → InRange t → t.year = y →
    py.strptimeFields (render pad t ++ ' ' :: Nat.toDigits 10 y) withYear
      = if t.Valid then some t else none

/-! ## Reading it back -/

theorem pad2_cons (n : ℕ) (l : Text) :
    pad2 '0' n ++ l = Nat.digitChar (n / 10) :: Nat.digitChar (n % 10) :: l := by
  rw [pad2_zero]
  rfl

theorem InRange.of_valid {t : TimeFields} (h : t.Valid) : InRange t := by
  obtain ⟨-, -, hm₁, hm₂, hd₁, hd₂, hh, hmin, hs⟩ := h
  exact ⟨⟨hm₁, hm₂⟩, ⟨hd₁, hd₂.trans (daysInMonth_le _ _)⟩, hh, hmin, hs⟩

section Reading

variable {py : Python} (hpy : py.AsciiTables) {pad : Char} (hpad : pad = ' ' ∨ pad = '0')
  {t : TimeFields} (ht : InRange t)

include hpy hpad ht

/-- **The date and the hour**, whatever the format goes on with. -/
theorem head?_readFormat_render (ds : List Directive) (rest : Text) :
    (py.readFormat (.monthName :: .space :: .day :: .space :: .hour :: .literal ':' :: ds) {}
        (monthAbbr t.month ++
          ' ' :: (pad2 pad t.day ++ ' ' :: (pad2 '0' t.hour ++ ':' :: rest)))).head?
      = (py.readFormat ds { month := t.month, day := t.day, hour := t.hour } rest).head? := by
  have hhour := ht.hour
  rw [Python.readFormat_monthName _ _ _ ht.month.1 ht.month.2, pad2_cons t.hour,
    Python.head?_readFormat_day hpy _ _ _ hpad ht.day.1 ht.day.2
      (hpy.isSpace_digitChar (by omega)), ← pad2_cons, Python.readFormat_hour hpy _ _ _ hhour]

/-- A format without the year leaves a rendered time aside when it expects one: after the
seconds… -/
theorem strptimeFields_render_second :
    py.strptimeFields (render pad t) withYear = none := by
  refine Python.strptimeFields_of_none ?_
  rw [withYear, render, head?_readFormat_render hpy hpad ht,
    Python.readFormat_minute hpy _ _ _ ht.minute, Python.readFormat_second_end hpy _ _ ht.second]
  rfl

/-- …and after the minutes. -/
theorem strptimeFields_render_minute :
    py.strptimeFields (render pad t) [.monthName, .space, .day, .space, .hour,
      .literal ':', .minute, .space, .year] = none := by
  refine Python.strptimeFields_of_none ?_
  rw [render, head?_readFormat_render hpy hpad ht,
    Python.readFormat_minute_space hpy _ _ _ ht.minute]
  rfl

omit hpad in
/-- A rendered time begins with a letter. -/
theorem render_cons :
    ∃ c l, render pad t = c :: l ∧ py.isSpace c = false ∧ py.decimal? c = none := by
  have hmonth : ∃ c l, monthAbbr t.month = c :: l ∧ '!' ≤ c ∧ c ≤ '~' ∧ c.isDigit = false := by
    obtain ⟨h₁, h₂⟩ := ht.month
    generalize t.month = m at h₁ h₂
    interval_cases m <;> exact ⟨_, _, rfl, by decide, by decide, by decide⟩
  obtain ⟨c, l, hm, hlo, hhi, hd⟩ := hmonth
  exact ⟨c, _, by rw [render, hm]; rfl, hpy.isSpace_visible c hlo hhi,
    hpy.decimal_visible c hlo hhi hd⟩

/-- **With a year of four digits behind it**, a rendered time is read as the date of that year. -/
theorem readsYear_aux {y : ℕ} (h₁ : 1000 ≤ y) (h₂ : y ≤ 9999) (hy : t.year = y) :
    py.strptimeFields (render pad t ++ ' ' :: Nat.toDigits 10 y) withYear
      = if t.Valid then some t else none := by
  obtain ⟨c, l, hdigits⟩ := List.exists_cons_of_ne_nil (Nat.toDigits_ne_nil (n := y) (b := 10))
  have hc : py.isSpace c = false := by
    have hmem : c ∈ Nat.toDigits 10 y := by rw [hdigits]; exact List.mem_cons_self
    rw [← digitChar_digitValue (isDigit_of_mem_toDigits hmem)]
    exact hpy.isSpace_digitChar (digitValue_lt (isDigit_of_mem_toDigits hmem))
  refine Python.strptimeFields_of_head ?_
  have htext :
    render pad t ++ ' ' :: Nat.toDigits 10 y = monthAbbr t.month ++ ' ' :: (pad2 pad t.day ++
      ' ' :: (pad2 '0' t.hour ++ ':' :: (pad2 '0' t.minute ++ ':' :: (pad2 '0' t.second ++
        ' ' :: Nat.toDigits 10 y)))) := by simp [render]
  rw [htext, withYear, head?_readFormat_render hpy hpad ht,
    Python.readFormat_minute hpy _ _ _ ht.minute, hdigits,
    Python.readFormat_second hpy _ _ _ ht.second hc, ← hdigits,
    Python.readFormat_year hpy _ h₁ h₂, ← hy]
  rfl

end Reading

/-- The assumption holds for every year of four digits. -/
theorem readsYear_of_four_digits {py : Python} (hpy : py.AsciiTables) {y : ℕ} (h₁ : 1000 ≤ y)
    (h₂ : y ≤ 9999) : ReadsYear py y :=
  fun _ _ hpad ht hy => readsYear_aux hpy hpad ht h₁ h₂ hy

/-! ## Dropping the suffix -/

section Suffix

variable {py : Python} (hpy : py.AsciiTables) {pad : Char} {t : TimeFields} (ht : InRange t)

/-- A rendered time ends with a digit. -/
theorem render_append (pad : Char) (t : TimeFields) :
    ∃ l, render pad t = l ++ [Nat.digitChar (t.second % 10)] := by
  refine ⟨monthAbbr t.month ++ ' ' :: (pad2 pad t.day ++ ' ' :: (pad2 '0' t.hour ++ ':' ::
    (pad2 '0' t.minute ++ [':', Nat.digitChar (t.second / 10)]))), ?_⟩
  rw [render, pad2_zero t.second]
  simp

theorem isUpper_ne_digit {c : Char} {d : ℕ} (hd : d < 10) (h : 'A' ≤ c) : c ≠ Nat.digitChar d := by
  rintro rfl
  exact absurd h (by interval_cases d <;> decide)

include hpy ht

/-- **A rendered time and its suffix** are stripped, the suffix is dropped, and what is left is the
time. -/
theorem strip_render_suffix {suffix : Text} (hs : Suffix suffix) :
    py.strip (render pad t ++ suffix) = render pad t ++ suffix ∧
      ¬[' ', 'E'] <:+ render pad t ++ suffix ∧
      py.strip (dropSuffix py (render pad t ++ suffix)) = render pad t := by
  obtain ⟨c, l, hhead, hc, -⟩ := render_cons hpy ht
  obtain ⟨l', hlast⟩ := render_append pad t
  have hd : t.second % 10 < 10 := Nat.mod_lt _ (by decide)
  have hdigit := hpy.isSpace_digitChar hd
  have hself : py.strip (render pad t) = render pad t :=
    Python.strip_eq_self (by rw [hhead]; simpa using hc) (by rw [hlast]; simpa using hdigit)
  rcases hs with rfl | ⟨n, x, hA, hZ, hE, rfl⟩
  · have hdrop : dropSuffix py (render pad t) = render pad t := by
      rw [dropSuffix, hlast, List.reverse_append]
      simp only [List.reverse_cons, List.reverse_nil, List.nil_append, List.cons_append]
      rw [if_neg fun hc => isUpper_ne_digit hd hc.1 rfl]
    rw [List.append_nil, hdrop]
    refine ⟨hself, ?_, hself⟩
    rintro ⟨a, ha⟩
    rw [hlast, show a ++ [' ', 'E'] = (a ++ [' ']) ++ ['E'] by simp] at ha
    have hchar := (List.append_inj' ha rfl).2
    exact isUpper_ne_digit hd (by decide) (List.singleton_inj.mp hchar)
  · have hx : py.isSpace x = false := by
      refine hpy.isSpace_visible x (le_trans (by decide) hA) (le_trans hZ (by decide))
    have htext : render pad t ++ (List.replicate (n + 1) ' ' ++ [x])
        = (render pad t ++ List.replicate (n + 1) ' ') ++ [x] := (List.append_assoc ..).symm
    have hdrop :
        dropSuffix py (render pad t ++ (List.replicate (n + 1) ' ' ++ [x])) = render pad t := by
      have hrev : (render pad t ++ (List.replicate (n + 1) ' ' ++ [x])).reverse
          = x :: (List.replicate (n + 1) ' ' ++ (render pad t).reverse) := by simp
      have hblanks : (List.replicate (n + 1) ' ' ++ (render pad t).reverse).dropWhile py.isSpace
          = (render pad t).reverse := by
        rw [List.dropWhile_append_of_pos (by simp [hpy.isSpace_blank]), hlast, List.reverse_append]
        exact List.dropWhile_cons_of_neg (by simp [hdigit])
      rw [dropSuffix, hrev]
      simp only [hblanks, List.reverse_reverse]
      rw [if_pos ⟨hA, hZ, by simp [List.replicate_succ, hpy.isSpace_blank]⟩]
    refine ⟨Python.strip_eq_self (by rw [hhead]; simpa using hc)
      (by rw [htext]; simpa using hx), ?_, by rw [hdrop, hself]⟩
    rintro ⟨a, ha⟩
    rw [htext, show a ++ [' ', 'E'] = (a ++ [' ']) ++ ['E'] by simp] at ha
    exact hE (List.singleton_inj.mp (List.append_inj' ha rfl).2).symm

/-- A time that ends in ` E` is an estimate, and nothing is read. -/
theorem readLsfTime_estimate (year : ℕ) :
    readLsfTime py (py.strip (render pad t ++ [' ', 'E'])) year = none := by
  obtain ⟨c, l, hhead, hc, -⟩ := render_cons hpy ht
  have hE : py.isSpace 'E' = false := hpy.isSpace_visible 'E' (by decide) (by decide)
  have hself : py.strip (render pad t ++ [' ', 'E']) = render pad t ++ [' ', 'E'] :=
    Python.strip_eq_self (by rw [hhead]; simpa using hc) (by simpa using hE)
  rw [readLsfTime, hself, if_pos (List.suffix_append _ _)]

end Suffix

/-! ## Finding the year -/

section Year

variable {py : Python} (hpy : py.AsciiTables) {pad : Char} (hpad : pad = ' ' ∨ pad = '0')
  {t : TimeFields} (ht : InRange t)

include hpy hpad ht

/-- **The formats with a year fail**, and the date is looked for in this year and then in the
last. -/
theorem readLsfTime_render {suffix : Text} (hs : Suffix suffix) {year : ℕ} {dt : TimeFields}
    (hread : ((py.strptimeFields (render pad t ++ ' ' :: Nat.toDigits 10 year) withYear).or
      (py.strptimeFields (render pad t ++ ' ' :: Nat.toDigits 10 (year - 1)) withYear)) = some dt) :
    readLsfTime py (py.strip (render pad t ++ suffix)) year = some (dt, true) := by
  obtain ⟨c, l, hhead, hc, hdec⟩ : ∃ c l, render pad t = c :: l ∧ py.isSpace c = false ∧
    py.decimal? c = none := render_cons hpy ht
  obtain ⟨hstrip, hno, hdrop⟩ : py.strip (render pad t ++ suffix) = render pad t ++ suffix ∧ _ :=
    strip_render_suffix hpy ht hs
  have hsecond := strptimeFields_render_second hpy hpad ht
  have hminute := strptimeFields_render_minute hpy hpad ht
  have hdate :
    py.strptimeFields (render pad t) [.year, .literal '-', .month, .literal '-', .day, .space,
      .hour, .literal ':', .minute, .literal ':', .second] = none := by
    refine Python.strptimeFields_of_none ?_
    rw [hhead, Python.readFormat_year_visible _ _ _ hdec]
    rfl
  have hne : ¬(render pad t = [] ∨ render pad t = ['-']) := by
    obtain ⟨l', hlast⟩ := render_append pad t
    rintro (h | h)
    · rw [hhead] at h
      cases h
    · have hd : t.second % 10 < 10 := Nat.mod_lt _ (by decide)
      rw [hlast] at h
      have hchar :=
        List.singleton_inj.mp (List.append_inj' (h.trans (List.nil_append _).symm) rfl).2
      generalize t.second % 10 = d at hchar hd
      interval_cases d <;> cases hchar
  rw [readLsfTime, hstrip, if_neg hno, hdrop]
  simp only [hne, if_false]
  simp only [withYear] at hsecond hread
  simp only [lsfTimeFormats, attempts, List.findSome?_cons, List.cons_append,
    List.nil_append, if_true, Bool.false_eq_true, if_false, List.map_cons, List.map_nil, hdate,
    hsecond, hminute, Option.map_none,
    List.findSome?_nil]
  generalize py.strptimeFields (render pad t ++ ' ' :: Nat.toDigits 10 year) _ = this at hread ⊢
  generalize py.strptimeFields (render pad t ++ ' ' :: Nat.toDigits 10 (year - 1))
    _ = last at hread ⊢
  rcases this with _ | dt₁
  · obtain rfl : last = some dt := hread
    rfl
  · obtain rfl := Option.some.inj hread
    rfl

omit hpy hpad ht in
/-- The year before a next year. -/
theorem lastYear_nextYear (h : t.Valid) : lastYear t.nextYear = some t := by
  have heq : ({ t.nextYear with year := t.nextYear.year - 1 } : TimeFields) = t := rfl
  rw [lastYear, heq, if_pos h]

end Year

section Recover

variable {py : Python} (hpy : py.AsciiTables) {pad : Char} (hpad : pad = ' ' ∨ pad = '0')
  {t : TimeFields} {now : Moment}

theorem Moment.Valid.lt_next_year (h : now.Valid) :
    now.toTime < midnight (daysBeforeYear (now.fields.year + 1) + 1) := by
  have := h.1.lt_next_year
  have hm := h.2
  rw [Moment.toTime]
  omega

/-- **A time of the last 364 days** is of this year or of the last one. -/
theorem year_cases (hnow : now.Valid) (ht : t.Valid) (hlt : now.toTime - 364 * dayMicros < t.toTime)
    (hle : t.toTime ≤ now.toTime) :
    t.year = now.fields.year ∨ t.nextYear.year = now.fields.year := by
  have hnow' : now.fields.toTime ≤ now.toTime := by rw [Moment.toTime]; omega
  have hmicros := hnow.2
  rcases lt_trichotomy t.year now.fields.year with h | h | h
  · refine .inr (le_antisymm h ?_)
    by_contra hgap
    have := ht.toTime_two_years hnow.1 (show t.year + 2 ≤ now.fields.year by
      simp only [TimeFields.nextYear] at hgap
      omega)
    rw [dayMicros] at *
    omega
  · exact .inl h
  · have := hnow.1.toTime_lt ht h
    rw [Moment.toTime] at *
    omega

include hpy hpad

/-- **The year is recovered.** -/
theorem placeYear_readLsfTime (hnow : now.Valid) (hmax : InYears (now.toTime + dayMicros))
    (hthis : ReadsYear py now.fields.year) (hlast : ReadsYear py (now.fields.year - 1))
    (ht : t.Valid) (hlt : now.toTime - 364 * dayMicros < t.toTime) (hle : t.toTime ≤ now.toTime)
    {suffix : Text} (hs : Suffix suffix) :
    placeYear now (readLsfTime py (py.strip (render pad t ++ suffix)) now.fields.year)
      = .ok (some t) := by
  have hrange := InRange.of_valid ht
  have hday : (0 : ℤ) < dayMicros := by decide
  rcases year_cases hnow ht hlt hle with hy | hy
  · -- of this year
    have hread := hthis pad t hpad hrange hy
    rw [if_pos ht] at hread
    rw [readLsfTime_render hpy hpad hrange hs (by rw [hread]; rfl), placeYear]
    simp only [if_true, hmax]
    rw [if_neg (by omega)]
  · have hread := hthis pad t.nextYear hpad ⟨hrange.month, hrange.day, hrange.hour, hrange.minute,
      hrange.second⟩ hy
    have hnext := TimeFields.nextYear_ge ht
    have hrender : render pad t.nextYear = render pad t := rfl
    rw [hrender] at hread
    by_cases hvalid : t.nextYear.Valid
    · -- the day is there this year, and far ahead
      rw [if_pos hvalid] at hread
      rw [readLsfTime_render hpy hpad hrange hs (by rw [hread]; rfl), placeYear]
      simp only [if_true, hmax]
      rw [if_pos (by omega), lastYear_nextYear ht]
    · -- a 29th of February that this year does not have
      have hread' := hlast pad t hpad hrange (by rw [← hy]; rfl)
      rw [if_pos ht] at hread'
      rw [if_neg hvalid] at hread
      rw [readLsfTime_render hpy hpad hrange hs (by rw [hread, hread']; rfl), placeYear]
      simp only [if_true, hmax]
      rw [if_neg (by omega)]

end Recover

/-! ## The cache is transparent -/

section Cache

variable {py : Python} {cache : TimeCache} {s : Text}

/-- **What is in the cache is what would be computed.** -/
def Sound (py : Python) (cache : TimeCache) : Prop :=
  ∀ s year parsed, cache.get? (s, year) = some parsed → parsed = readLsfTime py s year

theorem sound_empty : Sound py ∅ := fun _ _ _ h => by simp at h

theorem Sound.set (h : Sound py cache) (s : Text) (year : ℕ) :
    Sound py (cache.set (s, year) (readLsfTime py s year)) := by
  intro s' year' parsed hget
  rw [Dict.get?_set] at hget
  split at hget
  case isTrue heq =>
    obtain ⟨rfl, rfl⟩ := Prod.mk.inj heq
    exact (Option.some.inj hget).symm
  case isFalse => exact h s' year' parsed hget

theorem Sound.erase (h : Sound py cache) (k : Text × ℕ) : Sound py (cache.erase k) := by
  intro s' year' parsed hget
  rw [Dict.get?_erase] at hget
  split at hget
  case isTrue => cases hget
  case isFalse => exact h s' year' parsed hget

theorem Sound.evict (h : Sound py cache) : Sound py (evict cache) := by
  rw [Command.evict]
  split
  · split
    · exact h.erase _
    · exact h
  · exact h

/-- **A cached call answers as an uncached one**, and leaves the cache sound. -/
theorem Sound.parseLsfTimeCached (h : Sound py cache) (s : Text) (year : ℕ) :
    (parseLsfTimeCached py cache s year).1 = readLsfTime py s year ∧
      Sound py (parseLsfTimeCached py cache s year).2 := by
  rw [Command.parseLsfTimeCached]
  rcases hget : cache.get? (s, year) with _ | parsed
  · exact ⟨rfl, h.evict.set s year⟩
  · obtain rfl := h s year parsed hget
    exact ⟨rfl, (h.erase _).set s year⟩

theorem Sound.parseLsfTime (h : Sound py cache) (s : Text) (now : Moment) :
    (parseLsfTime py cache s now).1
        = placeYear now (readLsfTime py (py.strip s) now.fields.year) ∧
      Sound py (parseLsfTime py cache s now).2 := by
  obtain ⟨heq, hs⟩ := h.parseLsfTimeCached (py.strip s) now.fields.year
  exact ⟨congrArg (placeYear now) heq, hs⟩

theorem sound_cacheAfter (calls : List (Text × Moment)) : Sound py (cacheAfter py calls) := by
  suffices ∀ cache, Sound py cache →
      Sound py
        (calls.foldl (fun cache call => (Command.parseLsfTime py cache call.1 call.2).2) cache)
    from this ∅ sound_empty
  induction calls with
  | nil => exact fun cache h => h
  | cons call calls ih => exact fun cache h => ih _ (h.parseLsfTime call.1 call.2).2

end Cache

/-! ## Every time of the last year -/

/-- **The missing year is recovered**, whatever was parsed before: for every moment `now` whose next
day a `datetime` can hold, and every whole second of the 364 days up to it, in both paddings and
with every suffix; an estimate gives nothing; and every call answers as if it were the first. -/
theorem parseLsfTime_recovers {py : Python} (hpy : py.AsciiTables) (calls : List (Text × Moment))
    {now : Moment} (hnow : now.Valid) (hmax : InYears (now.toTime + dayMicros))
    (hthis : ReadsYear py now.fields.year) (hlast : ReadsYear py (now.fields.year - 1)) :
    (∀ t pad, t.Valid → now.toTime - 364 * dayMicros < t.toTime → t.toTime ≤ now.toTime →
      (pad = ' ' ∨ pad = '0') →
      (∀ suffix, Suffix suffix →
        (parseLsfTime py (cacheAfter py calls) (render pad t ++ suffix) now).1 = .ok (some t)) ∧
      (parseLsfTime py (cacheAfter py calls) (render pad t ++ [' ', 'E']) now).1 = .ok none) ∧
    ∀ s now', (parseLsfTime py (cacheAfter py calls) s now').1 = (parseLsfTime py ∅ s now').1 := by
  have hsound : Sound py (cacheAfter py calls) := sound_cacheAfter calls
  refine ⟨fun t pad ht hlt hle hpad => ⟨fun suffix hs => ?_, ?_⟩, fun s now' => ?_⟩
  · rw [(hsound.parseLsfTime _ now).1]
    exact placeYear_readLsfTime hpy hpad hnow hmax hthis hlast ht hlt hle hs
  · rw [(hsound.parseLsfTime _ now).1, readLsfTime_estimate hpy (InRange.of_valid ht)]
    rfl
  · rw [(hsound.parseLsfTime s now').1, (sound_empty.parseLsfTime s now').1]

/-- A winter morning after a leap year. -/
def february : Moment :=
  { fields := { year := 2025, month := 2, day := 20, hour := 9 }, micros := 250000 }

/-- The leap day of the year before is found, with a suffix and after another call. -/
theorem parseLsfTime_recovers_leap_day :
    (parseLsfTime Python.ascii (cacheAfter Python.ascii [("Feb 19 10:00:00".toList, february)])
        "Feb 29 23:59:58 L".toList february).1
      = .ok
          (some { year := 2024, month := 2, day := 29, hour := 23, minute := 59, second := 58 }) :=
  ((parseLsfTime_recovers Python.ascii_tables _ (by decide +kernel) (by decide +kernel)
    (readsYear_of_four_digits Python.ascii_tables (by decide) (by decide))
    (readsYear_of_four_digits Python.ascii_tables (by decide) (by decide))).1
      { year := 2024, month := 2, day := 29, hour := 23, minute := 59, second := 58 } '0'
      (by decide +kernel) (by decide +kernel) (by decide +kernel) (.inr rfl)).1
      " L".toList (.inr ⟨0, 'L', by decide, by decide, by decide, rfl⟩)

/-- **On the last day a `datetime` can hold** there is no next day to compare with, and every time
without a year raises. -/
theorem not_parseLsfTime_recovers :
    ¬∀ (py : Python) (calls : List (Text × Moment)) (now : Moment) (t : TimeFields),
      py.AsciiTables →
      now.Valid → ReadsYear py now.fields.year → ReadsYear py (now.fields.year - 1) → t.Valid →
      now.toTime - 364 * dayMicros < t.toTime → t.toTime ≤ now.toTime →
      (parseLsfTime py (cacheAfter py calls) (render ' ' t) now).1 = .ok (some t) := by
  intro hall
  let now : Moment := { fields := { year := 9999, month := 12, day := 31 } }
  have hok := hall Python.ascii [] now now.fields Python.ascii_tables (by decide +kernel)
    (readsYear_of_four_digits Python.ascii_tables (by decide) (by decide))
    (readsYear_of_four_digits Python.ascii_tables (by decide) (by decide))
    (by decide +kernel) (by decide +kernel) (by decide +kernel)
  have herr : (parseLsfTime Python.ascii (cacheAfter Python.ascii []) (render ' ' now.fields) now).1
      = .error .overflowError := by decide +kernel
  rw [herr] at hok
  cases hok

end Lsfmgr.Command
