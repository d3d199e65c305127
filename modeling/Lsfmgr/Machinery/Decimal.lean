import Mathlib
import Lsfmgr.Machinery.Text

/-!
# Machinery/Decimal — numbers as `str` writes them, and how they are read back

`str` and `int` have one limit on the number of digits, so what was written can be read.
-/

namespace Machinery

/-- The value of an ASCII digit. -/
def digitValue (c : Char) : ℕ := c.toNat - '0'.toNat

theorem digitValue_lt {c : Char} (h : c.isDigit = true) : digitValue c < 10 := by
  simp only [Char.isDigit, ge_iff_le, Bool.and_eq_true, decide_eq_true_eq] at h
  have hhi : c.toNat ≤ '9'.toNat := h.2
  have h9 : '9'.toNat = 57 := rfl
  have h0 : '0'.toNat = 48 := rfl
  rw [digitValue]
  omega

/-- A digit is the character of its value. -/
theorem digitChar_digitValue {c : Char} (h : c.isDigit = true) :
    Nat.digitChar (digitValue c) = c := by
  have hlt := digitValue_lt h
  simp only [Char.isDigit, ge_iff_le, Bool.and_eq_true, decide_eq_true_eq] at h
  have hlo : '0'.toNat ≤ c.toNat := h.1
  have h0 : '0'.toNat = 48 := rfl
  refine Char.toNat_inj.mp ?_
  rw [Nat.toNat_digitChar_of_lt_ten hlt, digitValue]
  omega

theorem isDigit_of_mem_toDigits {n : ℕ} {c : Char} (h : c ∈ Nat.toDigits 10 n) : c.isDigit = true :=
  Nat.isDigit_of_mem_toDigits (by decide) (by decide) h

namespace Python

variable {py : Python}

/-- `str` of a number; `none` where it raises. -/
def str? (py : Python) (n : ℕ) : Option (List Char) :=
  if py.withinLimit (Nat.toDigits 10 n).length then some (Nat.toDigits 10 n) else none

theorem str?_eq_some {n : ℕ} {l : List Char} (h : py.str? n = some l) :
    l = Nat.toDigits 10 n ∧ py.withinLimit (Nat.toDigits 10 n).length = true := by
  rw [str?] at h
  split_ifs at h with hlimit
  exact ⟨(Option.some.inj h).symm, hlimit⟩

namespace Lawful

variable (hpy : py.Lawful)

include hpy

theorem decimal_eq {c : Char} (h : c.isDigit = true) : py.decimal? c = some (digitValue c) := by
  conv_lhs => rw [← digitChar_digitValue h]
  exact hpy.decimal_digitChar _ (digitValue_lt h)

/-- A run of digits is read up to what ends it. -/
theorem spanDigits_append {l rest : List Char} (hl : ∀ c ∈ l, c.isDigit = true)
    (hrest : ∀ c ∈ rest.head?, py.decimal? c = none) :
    py.spanDigits (l ++ rest) = (l.map digitValue, rest) := by
  induction l with
  | nil =>
    cases rest with
    | nil => rfl
    | cons c rest => simp [spanDigits, hrest c rfl]
  | cons c l ih =>
    rw [List.forall_mem_cons] at hl
    rw [List.cons_append, spanDigits, hpy.decimal_eq hl.1, ih hl.2]
    rfl

/-- A run of digits is a literal. -/
theorem literalDigits_of {l : List Char} (hne : l ≠ []) (hl : ∀ c ∈ l, c.isDigit = true) :
    py.literalDigits? l = some (l.map digitValue) := by
  induction l with
  | nil => exact absurd rfl hne
  | cons c l ih =>
    rw [List.forall_mem_cons] at hl
    rcases l with _ | ⟨c', l⟩
    · simp [literalDigits?, hpy.decimal_eq hl.1]
    · have hunderscore : c' ≠ '_' := by
        rintro rfl
        exact absurd (hl.2 '_' List.mem_cons_self) (by decide)
      rw [literalDigits?, hpy.decimal_eq hl.1, ih (List.cons_ne_nil _ _) hl.2]
      · rfl
      · exact List.cons_ne_nil _ _
      · exact fun l' heq => hunderscore (List.cons.inj heq).1

theorem mapM_decimal {l : List Char} (hl : ∀ c ∈ l, c.isDigit = true) :
    l.mapM py.decimal? = some (l.map digitValue) := by
  induction l with
  | nil => rfl
  | cons c l ih =>
    rw [List.forall_mem_cons] at hl
    simp [List.mapM_cons, hpy.decimal_eq hl.1, ih hl.2]

end Lawful

theorem ofDigits_map_digitValue (l : List Char) :
    ofDigits (l.map digitValue) = Nat.ofDigitChars 10 l 0 := by
  rw [ofDigits, List.foldl_map, Nat.ofDigitChars_eq_foldl]
  rfl

/-- What `str` made of a number is read as that number. -/
theorem number?_toDigits {n : ℕ} (h : py.withinLimit (Nat.toDigits 10 n).length = true) :
    py.number? ((Nat.toDigits 10 n).map digitValue) = some n := by
  rw [number?, List.length_map, if_pos h, ofDigits_map_digitValue, Nat.ofDigitChars_ten_toDigits]

end Python

end Machinery
