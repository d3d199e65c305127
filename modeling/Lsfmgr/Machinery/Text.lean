import Mathlib

/-!
# Machinery/Text — strings as lists of characters, as Python's methods see them

What depends on the Unicode tables, on the interpreter's settings or on the local time zone is a
field of `Python`, and arbitrary.  Everything else is computed: `strip`, `partition`, `int`, and the
pieces of regular expressions the parsers are written with.
-/

namespace Machinery

/-- What an interpreter and its platform supply. -/
structure Python where
  isSpace : Char → Bool
  /-- `str.isdigit` of one character; a superscript is a digit, too. -/
  isDigit : Char → Bool
  /-- The value of a decimal digit, of any script; `\d` and `int` take no others. -/
  decimal? : Char → Option ℕ
  lower : List Char → List Char
  upper : List Char → List Char
  /-- `sys.get_int_max_str_digits()`, `none` without a limit. -/
  maxStrDigits : Option ℕ
  /-- The offset of local time at an instant of UTC, in microseconds. -/
  utcOffset : ℤ → ℤ

/-- What the parsers raise. -/
inductive PyError
  | valueError
  | overflowError
  deriving DecidableEq, Repr

instance decidableMemStrings (l : List Char) (ls : List (List Char)) : Decidable (l ∈ ls) :=
  inferInstance

namespace Python

variable (py : Python)

/-! ## Methods of strings -/

def strip (l : List Char) : List Char := (l.dropWhile py.isSpace).rdropWhile py.isSpace

/-- `str.isdigit` -/
def allDigits (l : List Char) : Bool := l ≠ [] ∧ l.all py.isDigit

/-- A conversion between an integer and a string of so many digits is within the limit. -/
def withinLimit (n : ℕ) : Bool := py.maxStrDigits.all fun limit => n ≤ limit

/-- The number with these digits. -/
def ofDigits (ds : List ℕ) : ℕ := ds.foldl (fun n d => 10 * n + d) 0

/-- `int` of a string of decimal digits, given by their values; `none` where it raises. -/
def number? (ds : List ℕ) : Option ℕ := if py.withinLimit ds.length then some (ofDigits ds)
    else none

/-- The same where the exception is one of many. -/
def readNumber (ds : List ℕ) : Except PyError ℕ :=
  match py.number? ds with
  | some n => .ok n
  | none => .error .valueError

/-- The decimal digits a string begins with, and the rest. -/
def spanDigits : List Char → List ℕ × List Char
  | [] => ([], [])
  | c :: l =>
    match py.decimal? c with
    | some d => (d :: (spanDigits l).1, (spanDigits l).2)
    | none => ([], c :: l)

/-- The digits of an integer literal: single underscores may separate them. -/
def literalDigits? : List Char → Option (List ℕ)
  | [] => none
  | [c] => (py.decimal? c).map fun d => [d]
  | c :: '_' :: l => (py.decimal? c).bind fun d => (literalDigits? l).map (d :: ·)
  | c :: l => (py.decimal? c).bind fun d => (literalDigits? l).map (d :: ·)

/-- `int` of a string; `none` where it raises. -/
def int? (l : List Char) : Option ℤ :=
  let unsigned (l : List Char) : Option ℕ := (py.literalDigits? l).bind py.number?
  match py.strip l with
  | '-' :: l => (unsigned l).map fun n => -(n : ℤ)
  | '+' :: l => (unsigned l).map fun n => (n : ℤ)
  | l => (unsigned l).map fun n => (n : ℤ)

/-- What the tables of every interpreter say of ASCII, as far as it is relied on. -/
structure Lawful : Prop where
  decimal_digitChar : ∀ d < 10, py.decimal? (Nat.digitChar d) = some d
  isDigit_digitChar : ∀ d < 10, py.isDigit (Nat.digitChar d) = true
  decimal_symbol : ∀ c ∈ ['[', ']', '-', '<', '>', ' ', '\n'], py.decimal? c = none
  isDigit_newline : py.isDigit '\n' = false
  isSpace_blank : py.isSpace ' ' = true
  isSpace_letter : ∀ c : Char, c.isLower = true → py.isSpace c = false
  lower_lower : ∀ l : List Char, (∀ c ∈ l, c.isLower = true ∨ c = ' ') → py.lower l = l

/-- An interpreter that knows ASCII only, in UTC. -/
def ascii : Python where
  isSpace c := c = ' ' || c = '\t' || c = '\n' || c = '\r'
  isDigit c := c.isDigit
  decimal? c := if c.isDigit then some (c.toNat - '0'.toNat) else none
  lower := List.map Char.toLower
  upper := List.map Char.toUpper
  maxStrDigits := some 4300
  utcOffset _ := 0

theorem ascii_lawful : ascii.Lawful where
  decimal_digitChar d hd := by interval_cases d <;> rfl
  isDigit_digitChar d hd := by interval_cases d <;> rfl
  decimal_symbol c hc := by fin_cases hc <;> rfl
  isDigit_newline := by decide
  isSpace_blank := by decide
  isSpace_letter c h := by
    have hne (d : Char) (hd : d.isLower = false) : c ≠ d := fun heq => by
      rw [heq, hd] at h
      cases h
    simp [ascii, hne ' ' (by decide), hne '\t' (by decide), hne '\n' (by decide),
      hne '\r' (by decide)]
  lower_lower l h := by
    refine (List.map_congr_left fun c hc => ?_).trans (List.map_id l)
    rcases h c hc with hl | rfl
    · simp only [Char.isLower, ge_iff_le, Bool.and_eq_true, decide_eq_true_eq] at hl
      rw [Char.toLower, dif_neg, id]
      rintro ⟨-, hz⟩
      exact absurd (UInt32.le_trans hl.1 hz) (by decide)
    · decide

end Python

/-- `str.partition`: what is before the first `c`, whether there is one, and what is after it. -/
def partition (c : Char) (l : List Char) : List Char × Bool × List Char :=
  (l.takeWhile (· ≠ c), c ∈ l, (l.dropWhile (· ≠ c)).tail)

/-- `l.split(c, 1)[0]` -/
def before (c : Char) (l : List Char) : List Char := l.takeWhile (· ≠ c)

/-- `str.replace` of one character by another. -/
def replaceChar (c c' : Char) (l : List Char) : List Char := l.map fun x => if x = c then c' else x

/-- `sub in l` -/
def isIn (sub l : List Char) : Bool := decide (sub <:+: l)

/-- What `str.splitlines` ends a line at. -/
def isLineBreak (c : Char) : Bool :=
  c.toNat ∈ [0x0a, 0x0b, 0x0c, 0x0d, 0x1c, 0x1d, 0x1e, 0x85, 0x2028, 0x2029]

/-- `str.splitlines` -/
def splitlines : List Char → List (List Char)
  | [] => []
  | c :: l =>
    if c = '\r' ∧ l.head? = some '\n' then
      -- the pair ends one line, and the second of the two does so
      splitlines l
    else if isLineBreak c then [] :: splitlines l
    else
      match splitlines l with
      | [] => [[c]]
      | line :: lines => (c :: line) :: lines

/-- `$`: at the end, or before the newline that ends the string. -/
def atEnd : List Char → Bool
  | [] => true
  | [c] => c = '\n'
  | _ => false

end Machinery
