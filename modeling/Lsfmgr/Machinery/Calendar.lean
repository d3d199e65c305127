import Mathlib
import Lsfmgr.Machinery.Datetime

/-!
# Machinery/Calendar — years beside one another

A valid date lies within its year (`Valid.year_le`, `Valid.lt_next_year`), so two moments less than
a year apart lie in the same year or in neighbouring ones; and the same day of the next year is at
least 365 days later (`nextYear_ge`).
-/

namespace Machinery

/-! ## Days -/

/-- The days before the first of January of a year. -/
def daysBeforeYear (y : ℕ) : ℕ := (y - 1) * 365 + (y - 1) / 4 - (y - 1) / 100 + (y - 1) / 400

def yearDays (y : ℕ) : ℕ := if isLeap y then 366 else 365

theorem isLeap_iff (y : ℕ) : isLeap y = true ↔ y % 4 = 0 ∧ (y % 100 ≠ 0 ∨ y % 400 = 0) := by
  simp [isLeap]

theorem daysBeforeYear_succ {y : ℕ} (hy : 1 ≤ y) :
    daysBeforeYear (y + 1) = daysBeforeYear y + yearDays y := by
  obtain ⟨n, rfl⟩ := Nat.exists_eq_add_of_le' hy
  have hleap : isLeap (n + 1) = true ↔ 4 ∣ n + 1 ∧ (¬100 ∣ n + 1 ∨ 400 ∣ n + 1) := by
    simp [isLeap_iff, Nat.dvd_iff_mod_eq_zero]
  have h₁ : 100 ∣ n + 1 → 4 ∣ n + 1 := (by decide : 4 ∣ 100).trans
  have h₂ : 400 ∣ n + 1 → 100 ∣ n + 1 := (by decide : 100 ∣ 400).trans
  have hle : n / 100 ≤ n / 4 := Nat.div_le_div_left (by decide) (by decide)
  simp only [daysBeforeYear, yearDays, Nat.add_sub_cancel, Nat.succ_div, hleap]
  generalize n / 4 = a at hle ⊢
  generalize n / 100 = b at hle ⊢
  generalize n / 400 = c
  by_cases h4 : 4 ∣ n + 1 <;> by_cases h100 : 100 ∣ n + 1 <;> by_cases h400 : 400 ∣ n + 1 <;>
    simp only [h4, h100, h400, true_implies, false_implies, imp_false, not_true_eq_false]
      at h₁ h₂ <;>
    simp [h4, h100, h400] <;> omega

theorem daysBeforeYear_mono {y y' : ℕ} (hy : 1 ≤ y) (h : y ≤ y') :
    daysBeforeYear y ≤ daysBeforeYear y' := by
  induction y', h using Nat.le_induction with
  | base => exact le_rfl
  | succ n hn ih => exact ih.trans (by rw [daysBeforeYear_succ (hy.trans hn)]; omega)

theorem toOrdinal_eq (y m d : ℕ) : toOrdinal y m d = daysBeforeYear y + daysBeforeMonth y m + d :=
  rfl

/-- A day of the year is within it. -/
theorem daysBeforeMonth_add_le {y m d : ℕ} (h₁ : 1 ≤ m) (h₂ : m ≤ 12) (hd : d ≤ daysInMonth y m) :
    daysBeforeMonth y m + d ≤ yearDays y := by
  rw [yearDays]
  rcases hleap : isLeap y <;>
    interval_cases m <;> simp [daysBeforeMonth, daysInMonth, List.range', hleap] at hd ⊢ <;> omega

/-- Between the same days of two years there is a year. -/
theorem daysBeforeMonth_next (y : ℕ) {m : ℕ} (h₁ : 1 ≤ m) (h₂ : m ≤ 12) :
    365 + daysBeforeMonth y m ≤ yearDays y + daysBeforeMonth (y + 1) m := by
  rw [yearDays]
  rcases hleap : isLeap y <;> rcases hnext : isLeap (y + 1) <;>
    interval_cases m <;> simp [daysBeforeMonth, daysInMonth, List.range', hleap, hnext]

theorem daysInMonth_le (y m : ℕ) : daysInMonth y m ≤ 31 := by
  unfold daysInMonth
  split <;> (try split) <;> decide

/-! ## Moments -/

theorem midnight_le {a b : ℤ} (h : a ≤ b) : midnight a ≤ midnight b := by
  rw [midnight, midnight, dayMicros]
  omega

theorem midnight_add (a b : ℤ) : midnight (a + b) = midnight a + b * dayMicros := by
  rw [midnight, midnight, dayMicros]
  ring

namespace TimeFields

/-- The microseconds since midnight. -/
def ofDay (f : TimeFields) : ℤ := ((f.hour * 60 + f.minute) * 60 + f.second) * 1000000

theorem toTime_eq (f : TimeFields) :
    f.toTime = midnight (toOrdinal f.year f.month f.day) + f.ofDay := rfl

variable {f g : TimeFields}

theorem ofDay_nonneg (f : TimeFields) : 0 ≤ f.ofDay := by
  rw [ofDay]
  positivity

/-- A second is whole, and the last of a day ends at midnight. -/
theorem Valid.ofDay_lt (h : f.Valid) : f.ofDay + 1000000 ≤ dayMicros := by
  obtain ⟨-, -, -, -, -, -, hh, hm, hs⟩ := h
  rw [ofDay, dayMicros]
  omega

/-- A time is within its year. -/
theorem Valid.year_le (h : f.Valid) : midnight (daysBeforeYear f.year + 1) ≤ f.toTime := by
  obtain ⟨-, -, -, -, hd, -⟩ := h
  rw [toTime_eq, toOrdinal_eq]
  have := f.ofDay_nonneg
  have : midnight (daysBeforeYear f.year + 1)
      ≤ midnight ((daysBeforeYear f.year + daysBeforeMonth f.year f.month + f.day : ℕ) : ℤ) :=
    midnight_le (by push_cast; omega)
  omega

theorem Valid.lt_next_year (h : f.Valid) :
    f.toTime + 1000000 ≤ midnight (daysBeforeYear (f.year + 1) + 1) := by
  have hday := h.ofDay_lt
  obtain ⟨hy, -, hm₁, hm₂, -, hd, -⟩ := h
  have hle := daysBeforeMonth_add_le hm₁ hm₂ hd
  rw [toTime_eq, toOrdinal_eq, daysBeforeYear_succ hy]
  have hmid : midnight (((daysBeforeYear f.year + yearDays f.year : ℕ) : ℤ) + 1)
      = midnight ((daysBeforeYear f.year + yearDays f.year : ℕ) : ℤ) + dayMicros := by
    rw [midnight_add, one_mul]
  have : midnight ((daysBeforeYear f.year + daysBeforeMonth f.year f.month + f.day : ℕ) : ℤ)
      ≤ midnight ((daysBeforeYear f.year + yearDays f.year : ℕ) : ℤ) :=
    midnight_le (by push_cast; omega)
  omega

/-- **A later year is a later time.** -/
theorem Valid.toTime_lt (hf : f.Valid) (hg : g.Valid) (h : f.year < g.year) :
    f.toTime + 1000000 ≤ g.toTime := by
  have hmono := daysBeforeYear_mono (show 1 ≤ f.year + 1 by omega) h
  have : midnight (daysBeforeYear (f.year + 1) + 1) ≤ midnight (daysBeforeYear g.year + 1) :=
    midnight_le (by exact_mod_cast Nat.succ_le_succ hmono)
  exact hf.lt_next_year.trans (this.trans hg.year_le)

/-- Two years on, at least 365 days have passed. -/
theorem Valid.toTime_two_years (hf : f.Valid) (hg : g.Valid) (h : f.year + 2 ≤ g.year) :
    f.toTime + 365 * dayMicros ≤ g.toTime := by
  have hy : 1 ≤ f.year := hf.1
  have hmono := daysBeforeYear_mono (show 1 ≤ f.year + 2 by omega) h
  rw [daysBeforeYear_succ (show 1 ≤ f.year + 1 by omega)] at hmono
  have hyear : 365 ≤ yearDays (f.year + 1) := by
    rw [yearDays]
    split <;> omega
  have hle : midnight ((daysBeforeYear (f.year + 1) + 1 : ℤ) + 365)
      ≤ midnight (daysBeforeYear g.year + 1) := midnight_le (by omega)
  rw [midnight_add] at hle
  have := hf.lt_next_year
  have := hg.year_le
  omega

/-- The same day and hour of the next year. -/
def nextYear (f : TimeFields) : TimeFields := { f with year := f.year + 1 }

/-- **The same day of the next year is at least 365 days later.** -/
theorem nextYear_ge (h : f.Valid) : f.toTime + 365 * dayMicros ≤ f.nextYear.toTime := by
  obtain ⟨hy, -, hm₁, hm₂, -⟩ := h
  have hnext := daysBeforeMonth_next f.year hm₁ hm₂
  have hle : midnight ((toOrdinal f.year f.month f.day : ℤ) + 365)
      ≤ midnight (toOrdinal (f.year + 1) f.month f.day) := by
    refine midnight_le ?_
    rw [toOrdinal_eq, toOrdinal_eq, daysBeforeYear_succ hy]
    push_cast
    omega
  rw [midnight_add] at hle
  have hsame : f.nextYear.ofDay = f.ofDay := rfl
  rw [toTime_eq, toTime_eq, hsame]
  change _ ≤ midnight (toOrdinal (f.year + 1) f.month f.day) + _
  omega

end TimeFields

/-! ## The fields of a moment -/

/-- The first of a row of numbers that a test lets through. -/
theorem find?_range' {p : ℕ → Bool} {n k : ℕ} (hk : 1 ≤ k ∧ k ≤ n) (hp : p k = true) :
    ∃ m, (List.range' 1 n).find? p = some m ∧ 1 ≤ m ∧ m ≤ k ∧ p m = true ∧
      ∀ j, 1 ≤ j → j < m → p j = false := by
  rcases hf : (List.range' 1 n).find? p with _ | m
  · have hall := List.find?_eq_none.mp hf k (List.mem_range'_1.mpr ⟨hk.1, by omega⟩)
    exact absurd hp hall
  · obtain ⟨hm, hmem, hmin⟩ := List.find?_range'_eq_some.mp hf
    have hm₁ : 1 ≤ m := (List.mem_range'_1.mp hmem).1
    refine ⟨m, rfl, hm₁, ?_, hm, fun j hj₁ hj₂ => by simpa using hmin j hj₁ hj₂⟩
    by_contra hlt
    have := hmin k hk.1 (by omega)
    rw [hp] at this
    cases this

/-- The year a day lies in, and the month of a day of the year. -/
def yearOf (ordinal : ℕ) : ℕ :=
  ((List.range' 1 9999).find? fun y => ordinal ≤ daysBeforeYear (y + 1)).getD 0

def monthOf (y dayOfYear : ℕ) : ℕ :=
  ((List.range' 1 12).find? fun m => dayOfYear ≤ daysBeforeMonth y (m + 1)).getD 0

/-- The fields of a moment, to the second. -/
def fieldsOf (t : ℤ) : TimeFields :=
  let ordinal := (t / dayMicros + 719163).toNat
  let year := yearOf ordinal
  let dayOfYear := ordinal - daysBeforeYear year
  let month := monthOf year dayOfYear
  let second := (t % dayMicros / 1000000).toNat
  { year, month, day := dayOfYear - daysBeforeMonth year month
    hour := second / 3600, minute := second / 60 % 60, second := second % 60 }

theorem daysBeforeMonth_succ {y m : ℕ} (hm : 1 ≤ m) :
    daysBeforeMonth y (m + 1) = daysBeforeMonth y m + daysInMonth y m := by
  obtain ⟨m, rfl⟩ := Nat.exists_eq_add_of_le' hm
  simp only [daysBeforeMonth, Nat.add_sub_cancel]
  rw [List.range'_concat, List.map_append, List.sum_append]
  simp [Nat.add_comm]

theorem daysBeforeMonth_thirteen (y : ℕ) : daysBeforeMonth y 13 = yearDays y := by
  rw [yearDays]
  rcases hleap : isLeap y <;> simp [daysBeforeMonth, daysInMonth, List.range', hleap]

theorem yearOf_spec {n : ℕ} (h₁ : 1 ≤ n) (h₂ : n ≤ daysBeforeYear 10000) :
    1 ≤ yearOf n ∧ yearOf n ≤ 9999 ∧ daysBeforeYear (yearOf n) < n ∧
      n ≤ daysBeforeYear (yearOf n + 1) := by
  obtain ⟨y, hy, hy₁, hy₂, hp, hmin⟩ := find?_range' (p := fun y => n ≤ daysBeforeYear (y + 1))
    (show 1 ≤ 9999 ∧ 9999 ≤ 9999 by omega) (by simpa using h₂)
  have hyear : yearOf n = y := by rw [yearOf, hy]; rfl
  rw [hyear]
  refine ⟨hy₁, hy₂, ?_, by simpa using hp⟩
  obtain ⟨y, rfl⟩ := Nat.exists_eq_add_of_le' hy₁
  rcases Nat.eq_zero_or_pos y with rfl | hpos
  · rw [show daysBeforeYear (0 + 1) = 0 from rfl]
    exact h₁
  · have := hmin y hpos (by omega)
    simpa using this

theorem monthOf_spec {y d : ℕ} (h₁ : 1 ≤ d) (h₂ : d ≤ yearDays y) :
    1 ≤ monthOf y d ∧ monthOf y d ≤ 12 ∧ daysBeforeMonth y (monthOf y d) < d ∧
      d ≤ daysBeforeMonth y (monthOf y d + 1) := by
  obtain ⟨m, hm, hm₁, hm₂, hp, hmin⟩ := find?_range' (p := fun m => d ≤ daysBeforeMonth y (m + 1))
    (show 1 ≤ 12 ∧ 12 ≤ 12 by omega) (by simpa [daysBeforeMonth_thirteen] using h₂)
  have hmonth : monthOf y d = m := by rw [monthOf, hm]; rfl
  rw [hmonth]
  refine ⟨hm₁, hm₂, ?_, by simpa using hp⟩
  obtain ⟨m, rfl⟩ := Nat.exists_eq_add_of_le' hm₁
  rcases Nat.eq_zero_or_pos m with rfl | hpos
  · rw [show daysBeforeMonth y (0 + 1) = 0 from rfl]
    exact h₁
  · have := hmin m hpos (by omega)
    simpa using this

/-- A whole second is a day and a second of the day. -/
theorem day_and_second {t : ℤ} (ht : InYears t) (hsec : (1000000 : ℤ) ∣ t) :
    ∃ n k : ℕ, (t / dayMicros + 719163).toNat = n ∧ (t % dayMicros / 1000000).toNat = k ∧ 1 ≤ n ∧
      n ≤ 3652059 ∧ k < 86400 ∧ t = midnight n + k * 1000000 := by
  obtain ⟨hlo, hhi⟩ := ht
  obtain ⟨u, rfl⟩ := hsec
  have hmicros : dayMicros = 86400000000 := rfl
  have hday : 1000000 * u / dayMicros = u / 86400 := by rw [hmicros]; omega
  have hofday : 1000000 * u % dayMicros / 1000000 = u % 86400 := by rw [hmicros]; omega
  rw [midnight, hmicros] at hlo hhi
  refine ⟨_, _, rfl, rfl, ?_⟩
  rw [hday, hofday, midnight, hmicros]
  omega

/-- **The fields of a whole second are those of a `datetime`**, and say that second. -/
theorem fieldsOf_spec {t : ℤ} (ht : InYears t) (hsec : (1000000 : ℤ) ∣ t) :
    (fieldsOf t).Valid ∧ (fieldsOf t).toTime = t := by
  obtain ⟨n, k, hn, hk, hn₁, hn₂, hklt, hsum⟩ := day_and_second ht hsec
  have hlast : daysBeforeYear 10000 = 3652059 := rfl
  obtain ⟨hy₁, hy₂, hylo, hyhi⟩ := yearOf_spec hn₁ (by omega)
  rw [daysBeforeYear_succ hy₁] at hyhi
  obtain ⟨hm₁, hm₂, hmlo, hmhi⟩ := monthOf_spec (show 1 ≤ n - daysBeforeYear (yearOf n) by omega)
    (show n - daysBeforeYear (yearOf n) ≤ yearDays (yearOf n) by omega)
  rw [daysBeforeMonth_succ hm₁] at hmhi
  rw [fieldsOf, hn, hk]
  generalize monthOf (yearOf n) (n - daysBeforeYear (yearOf n)) = m at *
  generalize yearOf n = y at *
  refine ⟨⟨hy₁, hy₂, hm₁, hm₂, ?_⟩, ?_⟩
  · dsimp only
    omega
  · have hord : toOrdinal y m (n - daysBeforeYear y - daysBeforeMonth y m) = n := by
      rw [toOrdinal_eq]
      omega
    have hofday : ((k / 3600 * 60 + k / 60 % 60) * 60 + k % 60 : ℕ) = k := by omega
    rw [TimeFields.toTime_eq, TimeFields.ofDay]
    dsimp only
    rw [hord, hsum]
    exact_mod_cast congrArg (fun j : ℕ => midnight n + (j : ℤ) * 1000000) hofday

end Machinery
