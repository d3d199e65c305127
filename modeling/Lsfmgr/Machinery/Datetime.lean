import Mathlib
import Lsfmgr.Machinery.Text

/-!
# Machinery/Datetime — naive times of the years 1 to 9999, and how Python reads them

A time is a number of microseconds since 1970-01-01 00:00:00, local or UTC as the reader takes it.
`strptime` compiles a format to a regular expression and takes its first match, if that is the whole
string; here the matches are listed in the order a backtracking matcher finds them.
-/

namespace Machinery

/-! ## The calendar -/

def isLeap (y : ℕ) : Bool := y % 4 = 0 ∧ (y % 100 ≠ 0 ∨ y % 400 = 0)

def daysInMonth (y m : ℕ) : ℕ :=
  match m with
  | 2 => if isLeap y then 29 else 28
  | 4 | 6 | 9 | 11 => 30
  | _ => 31

/-- The days of the year before a month. -/
def daysBeforeMonth (y m : ℕ) : ℕ := ((List.range' 1 (m - 1)).map (daysInMonth y)).sum

/-- `date.toordinal`: 0001-01-01 is day 1. -/
def toOrdinal (y m d : ℕ) : ℕ :=
  (y - 1) * 365 + (y - 1) / 4 - (y - 1) / 100 + (y - 1) / 400 + daysBeforeMonth y m + d

/-- Microseconds of a day. -/
def dayMicros : ℤ := 24 * 3600 * 1000000

/-- The midnight that begins a day, given by its ordinal. -/
def midnight (ordinal : ℤ) : ℤ := (ordinal - 719163) * dayMicros

/-- The time is one `datetime` can hold. -/
def InYears (t : ℤ) : Prop := midnight 1 ≤ t ∧ t < midnight 3652060

instance (t : ℤ) : Decidable (InYears t) := inferInstanceAs (Decidable (_ ∧ _))

/-- The fields of a parsed time. -/
structure TimeFields where
  year : ℕ := 1900
  month : ℕ := 1
  day : ℕ := 1
  hour : ℕ := 0
  minute : ℕ := 0
  second : ℕ := 0
  deriving DecidableEq, Repr

namespace TimeFields

/-- The fields are those of a `datetime`, whose constructor raises otherwise. -/
def Valid (f : TimeFields) : Prop :=
  1 ≤ f.year ∧ f.year ≤ 9999 ∧ 1 ≤ f.month ∧ f.month ≤ 12 ∧ 1 ≤ f.day ∧
    f.day ≤ daysInMonth f.year f.month ∧ f.hour ≤ 23 ∧ f.minute ≤ 59 ∧ f.second ≤ 59

instance (f : TimeFields) : Decidable f.Valid := inferInstanceAs (Decidable (_ ∧ _))

def toTime (f : TimeFields) : ℤ :=
  midnight (toOrdinal f.year f.month f.day) + ((f.hour * 60 + f.minute) * 60 + f.second) * 1000000

end TimeFields

/-! ## `strptime` -/

/-- A directive of a format; `space` is a run of blanks in it. -/
inductive Directive
  | year
  | month
  | monthName
  | day
  | hour
  | minute
  | second
  | literal (c : Char)
  | space

/-- The abbreviated names of the months in the C locale, in small letters. -/
def monthNames : List (List Char) :=
  ["jan", "feb", "mar", "apr", "may", "jun", "jul", "aug", "sep", "oct", "nov", "dec"].map
    String.toList

/-- `%b`: the name of a month in any case. -/
def readMonthName (l : List Char) : List (ℕ × List Char) :=
  (monthNames.zipIdx 1).filterMap fun (name, m) =>
    if (l.take 3).map Char.toLower = name then some (m, l.drop 3) else none

/-- A character class of ASCII digits. -/
def digitIn (lo hi : ℕ) (c : Char) : Option ℕ :=
  if lo + '0'.toNat ≤ c.toNat ∧ c.toNat ≤ hi + '0'.toNat then some (c.toNat - '0'.toNat) else none

/-- One character of a class. -/
def one (a : Char → Option ℕ) : List Char → List (ℕ × List Char)
  | c :: l => (a c).toList.map fun x => (x, l)
  | [] => []

/-- One character of a class and then a match of `rest`, as a number with one more digit. -/
def andThen (a : Char → Option ℕ) (rest : List Char → List (ℕ × List Char)) (tens : ℕ) :
    List Char → List (ℕ × List Char)
  | c :: l => (a c).toList.flatMap fun x => (rest l).map fun (y, l) => (tens * x + y, l)
  | [] => []

/-- Two characters. -/
def two (a b : Char → Option ℕ) : List Char → List (ℕ × List Char) := andThen a (one b) 10

namespace Python

variable (py : Python)

/-- What is left after a run of blanks, the longest run first. -/
def blanks : List Char → List (List Char)
  | c :: l => if py.isSpace c then blanks l ++ [l] else []
  | [] => []

/-- The matches of a directive, in the order of its alternatives. -/
def readDirective : Directive → List Char → List (ℕ × List Char)
  | .year, l => andThen py.decimal? (andThen py.decimal? (two py.decimal? py.decimal?) 100) 1000 l
  | .month, l => two (digitIn 1 1) (digitIn 0 2) l ++ two (digitIn 0 0) (digitIn 1 9) l ++
      one (digitIn 1 9) l
  | .monthName, l => readMonthName l
  | .day, l => two (digitIn 3 3) (digitIn 0 1) l ++ two (digitIn 1 2) py.decimal? l ++
      two (digitIn 0 0) (digitIn 1 9) l ++ one (digitIn 1 9) l ++
      (match l with
        | ' ' :: l => one (digitIn 1 9) l
        | _ => [])
  | .hour, l => two (digitIn 2 2) (digitIn 0 3) l ++ two (digitIn 0 1) py.decimal? l ++
      one py.decimal? l
  | .minute, l => two (digitIn 0 5) py.decimal? l ++ one py.decimal? l
  | .second, l => two (digitIn 6 6) (digitIn 0 1) l ++ two (digitIn 0 5) py.decimal? l ++
      one py.decimal? l
  | .literal c, l =>
    match l with
    | c' :: l => if c' = c then [(0, l)] else []
    | [] => []
  | .space, l => (py.blanks l).map fun l => (0, l)

/-- The matches of a format. -/
def readFormat : List Directive → TimeFields → List Char → List (TimeFields × List Char)
  | [], f, l => [(f, l)]
  | d :: ds, f, l => (py.readDirective d l).flatMap fun (v, l) =>
      let f := match d with
        | .year => { f with year := v }
        | .month | .monthName => { f with month := v }
        | .day => { f with day := v }
        | .hour => { f with hour := v }
        | .minute => { f with minute := v }
        | .second => { f with second := v }
        | .literal _ | .space => f
      readFormat ds f l

/-- The fields `datetime.strptime` reads; `none` where it raises `ValueError`. -/
def strptimeFields (l : List Char) (format : List Directive) : Option TimeFields :=
  match py.readFormat format {} l with
  | (f, []) :: _ => if f.Valid then some f else none
  | _ => none

/-- `datetime.strptime`; `none` where it raises `ValueError`. -/
def strptime (l : List Char) (format : List Directive) : Option ℤ :=
  (py.strptimeFields l format).map TimeFields.toTime

/-! ## Local time -/

/-- `datetime.fromtimestamp`; `none` where it raises. -/
def fromTimestamp (micros : ℤ) : Option ℤ :=
  let t := micros + py.utcOffset micros
  if InYears t then some t else none

/-- `dt.replace(tzinfo=timezone(offset)).astimezone().replace(tzinfo=None)`; `none` where a time on
the way cannot be held. -/
def asTimezone (dt offset : ℤ) : Option ℤ :=
  let utc := dt - offset
  let t := utc + py.utcOffset utc
  if InYears utc ∧ InYears t then some t else none

end Python

/-- The quotient rounded to the nearest integer, to the even one of two. -/
def roundHalfEven (n d : ℕ) : ℕ :=
  let q := n / d
  let r := n % d
  if d < 2 * r ∨ (2 * r = d ∧ q % 2 = 1) then q + 1 else q

/-- The microseconds `fromtimestamp` takes the quotient `millis / 1000.0` for, a double of 53
bits. -/
def millisMicros (millis : ℕ) : ℕ :=
  let k := 52 - Nat.log2 (millis / 1000)
  roundHalfEven (roundHalfEven (millis * 2 ^ k) 1000 * 1000000) (2 ^ k)

end Machinery
