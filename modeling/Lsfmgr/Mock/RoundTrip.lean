import Mathlib
import Lsfmgr.Command.Argv
import Lsfmgr.Command.Rows
import Lsfmgr.Machinery.Separated
import Lsfmgr.Mock.Formats

/-!
# Mock/RoundTrip — `_parse_bjobs` reads what `bjobs -o` of the mock prints

The formats are visible ASCII with blanks between, so every interpreter splits them alike
(`columns_of_format`).  A printed value is a `Cell`: it has no delimiter, no line break and no blank
at its ends, so that rows and columns are found again; and each value is read by its own parser.
-/

namespace Lsfmgr.Mock

open Machinery Command

/-! ## The columns of a format -/

section Congr

variable {f g : Char → Bool} {l : Text}

theorem takeWhile_congr (h : ∀ c ∈ l, f c = g c) : l.takeWhile f = l.takeWhile g := by
  induction l with
  | nil => rfl
  | cons c l ih =>
    rw [List.forall_mem_cons] at h
    rw [List.takeWhile_cons, List.takeWhile_cons, h.1, ih h.2]

theorem dropWhile_congr (h : ∀ c ∈ l, f c = g c) : l.dropWhile f = l.dropWhile g := by
  induction l with
  | nil => rfl
  | cons c l ih =>
    rw [List.forall_mem_cons] at h
    rw [List.dropWhile_cons, List.dropWhile_cons, h.1, ih h.2]

theorem words_congr (h : ∀ c ∈ l, f c = g c) : words f l = words g l := by
  have hsplit : l.splitOnP f = l.splitOnP g := by
    induction l with
    | nil => rfl
    | cons c l ih =>
      rw [List.forall_mem_cons] at h
      rw [List.splitOnP_cons_eq_if_modifyHead, List.splitOnP_cons_eq_if_modifyHead, h.1, ih h.2]
  rw [words, words, hsplit]

theorem delimiterValue_congr (h : ∀ c ∈ l, f c = g c) :
    delimiterValue f l = delimiterValue g l := by
  have hbare : ∀ c ∈ l, (!f c) = !g c := fun c hc => by rw [h c hc]
  simp only [delimiterValue, takeWhile_congr hbare, dropWhile_congr hbare]

theorem matchDelimiter_congr (h : ∀ c ∈ l, f c = g c) :
    matchDelimiter f l = matchDelimiter g l := by
  simp only [matchDelimiter]
  split
  case h_1 l =>
    rw [delimiterValue_congr fun c hc => h c (List.mem_cons_of_mem _ (List.mem_of_mem_drop hc))]
  case h_2 => rw [delimiterValue_congr fun c hc => h c (List.mem_of_mem_drop hc)]

theorem searchDelimiter_congr (h : ∀ c ∈ l, f c = g c) (free : Bool) :
    searchDelimiter f free l = searchDelimiter g free l := by
  induction l generalizing free with
  | nil => rw [searchDelimiter, searchDelimiter, matchDelimiter_congr h]
  | cons c l ih =>
    have hrest : ∀ free, searchDelimiter f free l = searchDelimiter g free l :=
      ih fun c hc => h c (List.mem_cons_of_mem _ hc)
    rw [searchDelimiter, searchDelimiter, matchDelimiter_congr h, h c List.mem_cons_self, hrest]

end Congr

/-- The formats of `bjobs`, from the poorest. -/
inductive BjobsFormat
  | core
  | full
  | fullMc
  deriving DecidableEq, Repr

namespace BjobsFormat

def spec : BjobsFormat → Text
  | core => bjobsCoreFmt.toList
  | full => bjobsFullFmt.toList
  | fullMc => bjobsFullMcFmt.toList

def names : BjobsFormat → List String
  | core => ["jobid", "stat", "exit_code"]
  | full => ["jobid", "stat", "exit_code", "run_time", "start_time", "finish_time"]
  | fullMc => ["jobid", "stat", "exit_code", "run_time", "start_time", "finish_time",
      "source_cluster", "forward_cluster"]

end BjobsFormat

/-- The blank, and nothing else. -/
def onlyBlank (c : Char) : Bool := c = ' '

/-- A blank or a visible character of ASCII. -/
def printable (c : Char) : Bool := 32 ≤ c.toNat && c.toNat ≤ 126

theorem isSpace_eq_onlyBlank {py : Python} (hpy : py.AsciiTables) {l : Text}
    (h : l.all printable = true) : ∀ c ∈ l, py.isSpace c = onlyBlank c := by
  intro c hc
  have hp : printable c = true := List.all_eq_true.mp h c hc
  simp only [printable, Bool.and_eq_true, decide_eq_true_eq] at hp
  by_cases heq : c = ' '
  · rw [heq, hpy.isSpace_blank]
    rfl
  · have hne : c.toNat ≠ ' '.toNat := fun h => heq (Char.toNat_inj.mp h)
    have hblank : ' '.toNat = 32 := rfl
    have hlo : '!'.toNat ≤ c.toNat := by
      rw [show '!'.toNat = 33 from rfl]
      omega
    rw [hpy.isSpace_visible c hlo hp.2, onlyBlank, decide_eq_false heq]

/-- **The columns and the delimiter of the three formats.** -/
theorem columns_of_format {py : Python} (hpy : py.AsciiTables) (fmt : BjobsFormat) :
    ∃ spec, extractDelimiter py.isSpace fmt.spec = (spec, some [';']) ∧
      parseOSpec py spec = fmt.names.map fun name => (name.toList, none) := by
  have hwords : ∀ l : Text, l.all printable = true → words py.isSpace l = words onlyBlank l :=
    fun l hl => words_congr (isSpace_eq_onlyBlank hpy hl)
  have hsearch : searchDelimiter py.isSpace true fmt.spec
      = some ([' '].intercalate (fmt.names.map String.toList) ++ [' '], [';'], []) := by
    rw [searchDelimiter_congr (isSpace_eq_onlyBlank hpy (by cases fmt <;> decide +kernel))]
    cases fmt <;> decide +kernel
  refine ⟨[' '].intercalate (fmt.names.map String.toList), ?_, ?_⟩
  · rw [extractDelimiter, hsearch]
    simp only
    rw [hwords _ (by cases fmt <;> decide +kernel)]
    cases fmt <;> decide +kernel
  · have hsplit : words onlyBlank ([' '].intercalate (fmt.names.map String.toList))
        = fmt.names.map String.toList := by cases fmt <;> decide +kernel
    rw [parseOSpec, hwords _ (by cases fmt <;> decide +kernel), hsplit, List.map_map]
    refine List.map_congr_left fun name hname => ?_
    have hcolon : ':' ∉ name.toList := by
      have hall : (fmt.names.all fun name => !name.toList.contains ':') = true := by
        cases fmt <;> decide +kernel
      simpa using List.all_eq_true.mp hall name hname
    simp [hcolon]

/-! ## Cells -/

section Cells

variable {py : Python} (hpy : py.AsciiTables)

/-- What may stand in a cell, as far as it is ASCII. -/
def cellChar (c : Char) : Bool := printable c && c ≠ ';'

theorem cellChar_of_isDigit {c : Char} (h : c.isDigit = true) : cellChar c = true ∧ c ≠ ' ' := by
  rw [← digitChar_digitValue h]
  have hlt := digitValue_lt h
  generalize digitValue c = d at hlt
  interval_cases d <;> decide

theorem all_cellChar_digits (n : ℕ) : (Nat.toDigits 10 n).all cellChar = true :=
  List.all_eq_true.mpr fun _ hc => (cellChar_of_isDigit (isDigit_of_mem_toDigits hc)).1

/-- A number begins with a digit. -/
theorem head?_digits (n : ℕ) : (Nat.toDigits 10 n).head?.any (· ≠ ' ') = true := by
  obtain ⟨c, l, h⟩ := List.exists_cons_of_ne_nil (Nat.toDigits_ne_nil (n := n) (b := 10))
  have hc :
    c.isDigit = true := isDigit_of_mem_toDigits (n := n) (by rw [h]; exact List.mem_cons_self)
  simp [h, (cellChar_of_isDigit hc).2]

/-- A number ends with a digit. -/
theorem getLast?_digits (n : ℕ) : (Nat.toDigits 10 n).getLast?.any (· ≠ ' ') = true := by
  have hne : Nat.toDigits 10 n ≠ [] := Nat.toDigits_ne_nil
  have hc := isDigit_of_mem_toDigits (List.getLast_mem hne)
  simp [List.getLast?_eq_some_getLast hne, (cellChar_of_isDigit hc).2]

include hpy

theorem cell_of_all {v : Text} (hall : v.all cellChar = true) (hhead : v.head?.any (· ≠ ' ') = true)
    (hlast : v.getLast?.any (· ≠ ' ') = true) : Cell py ';' v := by
  have hchar : ∀ c ∈ v, printable c = true ∧ c ≠ ';' := fun c hc => by
    simpa [cellChar] using List.all_eq_true.mp hall c hc
  have hspace : ∀ c ∈ v, py.isSpace c = onlyBlank c :=
    isSpace_eq_onlyBlank hpy (List.all_eq_true.mpr fun c hc => (hchar c hc).1)
  refine ⟨fun hc => (hchar _ hc).2 rfl, fun c hc => ?_,
    Python.strip_eq_self_iff.mpr ⟨fun c hc => ?_, fun c hc => ?_⟩,
    fun hnil => by simp [hnil] at hhead⟩
  · have hp := (hchar c hc).1
    simp only [printable, Bool.and_eq_true, decide_eq_true_eq] at hp
    rw [isLineBreak, decide_eq_false]
    intro hbreak
    simp only [List.mem_cons, List.not_mem_nil, or_false] at hbreak
    omega
  · rw [hspace c (List.mem_of_mem_head? hc)]
    rw [Option.mem_def.mp hc] at hhead
    simpa [onlyBlank] using hhead
  · rw [hspace c (List.mem_of_getLast? hc)]
    rw [Option.mem_def.mp hc] at hlast
    simpa [onlyBlank] using hlast

theorem cell_dash : Cell py ';' ['-'] := cell_of_all hpy (by decide) (by decide) (by decide)

theorem cell_name (stat : Stat) : Cell py ';' stat.name := by
  cases stat <;> exact cell_of_all hpy (by decide) (by decide) (by decide)

theorem cell_digits (n : ℕ) : Cell py ';' (Nat.toDigits 10 n) :=
  cell_of_all hpy (all_cellChar_digits n) (head?_digits n) (getLast?_digits n)

theorem cell_displayId {job : Job} {v : Text} (h : displayId py job = some v) : Cell py ';' v := by
  rw [displayId] at h
  split at h
  case h_1 =>
    obtain ⟨rfl, -⟩ := Python.str?_eq_some h
    exact cell_digits hpy _
  case h_2 i _ =>
    obtain ⟨id, hid, h⟩ := Option.bind_eq_some_iff.mp h
    obtain ⟨index, hindex, rfl⟩ := Option.map_eq_some_iff.mp h
    obtain ⟨rfl, -⟩ := Python.str?_eq_some hid
    obtain ⟨rfl, -⟩ := Python.str?_eq_some hindex
    refine cell_of_all hpy ?_ ?_ ?_
    · simp only [List.all_append, List.all_cons, List.all_nil, all_cellChar_digits]
      decide
    · rw [List.head?_append_of_ne_nil _ Nat.toDigits_ne_nil]
      exact head?_digits _
    · rw [← List.cons_append, ← List.append_assoc,
        List.getLast?_append_of_ne_nil _ (List.cons_ne_nil _ _)]
      decide

theorem cell_strInt {n : ℤ} {v : Text} (h : strInt? py n = some v) : Cell py ';' v := by
  rw [strInt?] at h
  split at h
  · obtain ⟨l, hl, rfl⟩ := Option.map_eq_some_iff.mp h
    obtain ⟨rfl, -⟩ := Python.str?_eq_some hl
    refine cell_of_all hpy ?_ (by simp) ?_
    · rw [List.all_cons, all_cellChar_digits]
      decide
    · rw [List.getLast?_cons_of_ne_nil Nat.toDigits_ne_nil]
      exact getLast?_digits _
  · obtain ⟨rfl, -⟩ := Python.str?_eq_some h
    exact cell_digits hpy _

theorem cell_seconds (n : ℕ) : Cell py ';' (Nat.toDigits 10 n ++ " second(s)".toList) := by
  refine cell_of_all hpy ?_ ?_ ?_
  · rw [List.all_append, all_cellChar_digits]
    decide
  · rw [List.head?_append_of_ne_nil _ Nat.toDigits_ne_nil]
    exact head?_digits _
  · rw [List.getLast?_append_of_ne_nil _ (by decide)]
    decide

theorem cell_render {t : TimeFields} (ht : InRange t) : Cell py ';' (render ' ' t) := by
  have hmonth :
      (monthAbbr t.month).all cellChar = true ∧ (monthAbbr t.month).head?.any (· ≠ ' ') = true := by
    obtain ⟨h₁, h₂⟩ := ht.month
    generalize t.month = m at h₁ h₂
    interval_cases m <;> decide
  have hpad : ∀ pad n, (pad = ' ' ∨ pad = '0') → n < 100 → (pad2 pad n).all cellChar = true := by
    intro pad n hpad hn
    have hdigit : ∀ d < 10, cellChar (Nat.digitChar d) = true := by decide
    have hpadChar : cellChar pad = true := by rcases hpad with rfl | rfl <;> decide
    rw [pad2]
    split
    case isTrue h => simp [hpadChar, hdigit n h]
    case isFalse => simp [hdigit (n / 10) (by omega), hdigit (n % 10) (by omega)]
  obtain ⟨h₁, h₂, h₃, h₄⟩ : t.day < 100 ∧ t.hour < 100 ∧ t.minute < 100 ∧ t.second < 100 := by
    have := ht.day
    have := ht.hour
    have := ht.minute
    have := ht.second
    omega
  obtain ⟨l, hlast⟩ := render_append ' ' t
  refine cell_of_all hpy ?_ ?_ ?_
  · simp only [render, List.all_append, List.all_cons, hmonth.1, hpad _ _ (.inl rfl) h₁,
      hpad _ _ (.inr rfl) h₂, hpad _ _ (.inr rfl) h₃, hpad _ _ (.inr rfl) h₄]
    decide
  · obtain ⟨c, l', hc⟩ : ∃ c l', monthAbbr t.month = c :: l' :=
      List.exists_cons_of_ne_nil fun hnil => by simp [hnil] at hmonth
    have hhead := hmonth.2
    rw [hc] at hhead
    rw [render, hc]
    exact hhead
  · have hd : t.second % 10 < 10 := Nat.mod_lt _ (by decide)
    rw [hlast, List.getLast?_append_of_ne_nil _ (List.cons_ne_nil _ _)]
    generalize t.second % 10 = d at hd
    interval_cases d <;> decide

end Cells

/-! ## Values -/

/-- The state the manager knows a STAT by. -/
def Stat.state : Stat → JobState
  | pend => .pend
  | run => .run
  | done => .done
  | exit => .exit
  | psusp => .psusp
  | ususp => .ususp
  | ssusp => .ssusp

theorem rowState_name (stat : Stat) : rowState stat.name = stat.state := by
  cases stat <;> decide

theorem state_finished (stat : Stat) :
    (stat.state = .done ∨ stat.state = .exit) ↔ stat.isFinished = true := by
  cases stat <;> decide

section Values

variable {py : Python} (hpy : py.AsciiTables)

theorem readNumber_digits {n : ℕ} (h : py.withinLimit (Nat.toDigits 10 n).length = true) :
    py.readNumber ((Nat.toDigits 10 n).map digitValue) = .ok n := by
  rw [Python.readNumber, Python.number?_toDigits h]

include hpy

/-- **The id of a job and its index.** -/
theorem matchArrayId_displayId {job : Job} {v : Text} (h : displayId py job = some v) :
    ∃ digits index, matchArrayId py v = some (digits, index) ∧
      py.readNumber digits = .ok job.jobId ∧
      (match index with
        | none => .ok none
        | some index => (py.readNumber index).map some) = (.ok job.arrayIndex : Reading _) := by
  have hdigits (n : ℕ) : ∀ c ∈ Nat.toDigits 10 n, c.isDigit = true :=
    fun _ => isDigit_of_mem_toDigits
  have hmapne (n : ℕ) : (Nat.toDigits 10 n).map digitValue ≠ [] := by simp [Nat.toDigits_ne_nil]
  rw [displayId] at h
  split at h
  case h_1 hnone =>
    obtain ⟨rfl, hid⟩ := Python.str?_eq_some h
    refine ⟨_, none, ?_, readNumber_digits hid, by rw [hnone]⟩
    have hspan : py.spanDigits (Nat.toDigits 10 job.jobId ++ [])
        = ((Nat.toDigits 10 job.jobId).map digitValue, []) :=
      hpy.spanDigits_append (hdigits job.jobId) (by simp)
    rw [List.append_nil] at hspan
    simp [matchArrayId, hspan, Nat.toDigits_ne_nil, atEnd]
  case h_2 i hi =>
    obtain ⟨id, hid, h⟩ := Option.bind_eq_some_iff.mp h
    obtain ⟨index, hindex, rfl⟩ := Option.map_eq_some_iff.mp h
    obtain ⟨rfl, hidLimit⟩ := Python.str?_eq_some hid
    obtain ⟨rfl, hindexLimit⟩ := Python.str?_eq_some hindex
    refine ⟨_, some ((Nat.toDigits 10 i).map digitValue), ?_, readNumber_digits hidLimit, ?_⟩
    · have hspan : py.spanDigits (Nat.toDigits 10 job.jobId ++ '[' :: (Nat.toDigits 10 i ++ [']']))
          = ((Nat.toDigits 10 job.jobId).map digitValue, '[' :: (Nat.toDigits 10 i ++ [']'])) :=
        hpy.spanDigits_append (hdigits job.jobId)
          (by simpa using hpy.decimal_symbol '[' (by decide))
      have hspan' : py.spanDigits (Nat.toDigits 10 i ++ [']'])
          = ((Nat.toDigits 10 i).map digitValue, [']']) :=
        hpy.spanDigits_append (hdigits i) (by simpa using hpy.decimal_symbol ']' (by decide))
      obtain ⟨d, ds, hds⟩ := List.exists_cons_of_ne_nil (hmapne i)
      have hend : atEnd ('[' :: (Nat.toDigits 10 i ++ [']'])) = false := by
        obtain ⟨c, l, hc⟩ := List.exists_cons_of_ne_nil (Nat.toDigits_ne_nil (n := i) (b := 10))
        rw [hc]
        rfl
      rw [hds] at hspan'
      simp only [matchArrayId, hspan, hmapne, if_false, hend, Bool.false_eq_true, hspan']
      rw [hds]
      rfl
    · simp [readNumber_digits hindexLimit, hi, Except.map]

theorem parseRunTime_seconds {n : ℕ} (h : py.withinLimit (Nat.toDigits 10 n).length = true) :
    parseRunTime py (Nat.toDigits 10 n ++ " second(s)".toList) = .ok (some (n : ℤ)) := by
  have hcell := cell_seconds hpy n
  have hspan : py.spanDigits (Nat.toDigits 10 n ++ " second(s)".toList)
      = ((Nat.toDigits 10 n).map digitValue, " second(s)".toList) :=
    hpy.spanDigits_append (fun _ hc => isDigit_of_mem_toDigits hc)
      (by simpa using hpy.decimal_symbol ' ' (by decide))
  obtain ⟨c, l, hc⟩ := List.exists_cons_of_ne_nil (Nat.toDigits_ne_nil (n := n) (b := 10))
  have hsearch : searchDigits py (Nat.toDigits 10 n ++ " second(s)".toList)
      = some ((Nat.toDigits 10 n).map digitValue) := by
    rw [hc] at hspan ⊢
    rw [List.cons_append, searchDigits, ← List.cons_append, hspan]
    rfl
  have hne : ¬(Nat.toDigits 10 n ++ " second(s)".toList = [] ∨
      Nat.toDigits 10 n ++ " second(s)".toList = ['-']) := by
    rw [hc]
    rintro (heq | heq)
    · cases heq
    · have := congrArg List.length heq
      simp at this
  simp only [parseRunTime, hcell.strip, hne, if_false, hsearch, readNumber_digits h]
  rfl

theorem parseRunTime_dash : parseRunTime py ['-'] = .ok none := by
  simp [parseRunTime, (cell_dash hpy).strip]

theorem rowExitCode_strInt {n : ℤ} {v : Text} (h : strInt? py n = some v) :
    rowExitCode py v = some n := by
  have hcell := cell_strInt hpy h
  have hunsigned (k : ℕ) (hk : py.withinLimit (Nat.toDigits 10 k).length = true) :
      (py.literalDigits? (Nat.toDigits 10 k)).bind py.number? = some k := by
    rw [hpy.literalDigits_of Nat.toDigits_ne_nil fun c hc => isDigit_of_mem_toDigits hc]
    exact Python.number?_toDigits hk
  rw [strInt?] at h
  split at h
  case isTrue hneg =>
    obtain ⟨l, hl, rfl⟩ := Option.map_eq_some_iff.mp h
    obtain ⟨rfl, hlimit⟩ := Python.str?_eq_some hl
    have hne : ¬('-' :: Nat.toDigits 10 n.natAbs ∈ [[], ['-']] : Prop) := by
      simp [Nat.toDigits_ne_nil]
    rw [rowExitCode, if_neg hne, Python.int?, hcell.strip]
    simp [hunsigned _ hlimit, abs_of_neg hneg]
  case isFalse hpos =>
    obtain ⟨rfl, hlimit⟩ := Python.str?_eq_some h
    obtain ⟨c, l, hc⟩ := List.exists_cons_of_ne_nil (Nat.toDigits_ne_nil (n := n.natAbs) (b := 10))
    have hdigit : c.isDigit = true :=
      isDigit_of_mem_toDigits (n := n.natAbs) (by rw [hc]; exact List.mem_cons_self)
    have hminus : c ≠ '-' := by rintro rfl; exact absurd hdigit (by decide)
    have hplus : c ≠ '+' := by rintro rfl; exact absurd hdigit (by decide)
    have hne : ¬(Nat.toDigits 10 n.natAbs ∈ [[], ['-']] : Prop) := by
      simp [hc, hminus]
    have hval := hunsigned _ hlimit
    rw [rowExitCode, if_neg hne, Python.int?, hcell.strip]
    rw [hc] at hval ⊢
    split
    case h_1 heq => exact absurd (List.cons.inj heq).1 hminus
    case h_2 heq => exact absurd (List.cons.inj heq).1 hplus
    case h_3 =>
      simp [hval, abs_of_nonneg (not_lt.mp hpos)]

end Values

/-! ## Fields -/

/-- How a response is read: at one moment, after any earlier calls.  It raises where
`_parse_lsf_time` does. -/
def readTime (py : Python) (calls : List (Text × Moment)) (now : Moment) (s : Text) :
    Reading (Option Time) :=
  (parseLsfTime py (cacheAfter py calls) s now).1.map fun t => t.map TimeFields.toTime

/-- The local second of a time is one of the 364 days up to `now`. -/
def Recent (py : Python) (now : Moment) (epoch : ℚ) : Prop :=
  now.toTime - 364 * dayMicros < localSecond py epoch ∧ localSecond py epoch ≤ now.toTime

/-- The name of a cluster, or nothing, that can be told from its cell. -/
structure ClusterName (py : Python) (cluster : Text) : Prop where
  separator : ';' ∉ cluster
  line : ∀ c ∈ cluster, isLineBreak c = false
  strip : py.strip cluster = cluster
  ne_dash : cluster ≠ ['-']

/-- The job's numbers can be printed, its times are of the last 364 days, and its clusters have
names. -/
structure Readable (py : Python) (time : ℚ) (now : Moment) (job : Job) : Prop where
  jobId : (py.str? job.jobId).isSome
  index : ∀ i ∈ job.arrayIndex, (py.str? i).isSome
  exitCode : (strInt? py job.exitCode).isSome
  start : ∀ t ∈ job.startTime, Recent py now t ∧ (py.str? (elapsed time job t)).isSome
  finish : job.stat.isFinished = true → ∀ t ∈ job.finishTime, Recent py now t
  source : ClusterName py job.sourceCluster
  forward : ClusterName py job.forwardCluster

instance (py : Python) (now : Moment) (epoch : ℚ) : Decidable (Recent py now epoch) :=
  inferInstanceAs (Decidable (_ ∧ _))

/-- No time is the epoch itself, which the mock takes for none. -/
structure Timed (job : Job) : Prop where
  start : job.startTime ≠ some 0
  finish : job.stat.isFinished = true → job.finishTime ≠ some 0

/-- The text of a time that may be missing. -/
def timeText (py : Python) (x : Option ℚ) : Text :=
  match truthy x with
  | some t => fmtOTime py t
  | none => ['-']

theorem Readable.finish_recent {py : Python} {time : ℚ} {now : Moment} {job : Job}
    (h : Readable py time now job) (htimed : Timed job) :
    ∀ t ∈ if job.stat.isFinished then job.finishTime else none, t ≠ 0 ∧ Recent py now t := by
  intro t ht
  split at ht
  case isTrue hfin =>
    exact ⟨fun h0 => htimed.finish hfin (by rw [Option.mem_def.mp ht, h0]), h.finish hfin t ht⟩
  case isFalse => cases ht

theorem Timed.start_ne_zero {job : Job} (h : Timed job) : ∀ t ∈ job.startTime, t ≠ 0 :=
  fun _ ht h0 => h.start (by rw [Option.mem_def.mp ht, h0])

section Fields

variable {py : Python} (hpy : py.AsciiTables) {time : ℚ} {now : Moment} {job : Job}

theorem truthy_of_ne_zero {x : Option ℚ} (h : ∀ t ∈ x, t ≠ 0) : truthy x = x := by
  rcases x with _ | t
  · rfl
  · simp [truthy, h t rfl]

include hpy

theorem field_jobid (h : Readable py time now job) :
    ∃ v, fieldValue py time job "jobid".toList = some v ∧ displayId py job = some v := by
  have hval : fieldValue py time job "jobid".toList = displayId py job := by
    rw [fieldValue, hpy.lower_names _ (by decide)]
    rfl
  rw [hval]
  obtain ⟨id, hid⟩ := Option.isSome_iff_exists.mp h.jobId
  rcases hindex : job.arrayIndex with _ | i
  · exact ⟨id, by simp [displayId, hindex, hid]⟩
  · obtain ⟨index, hi⟩ := Option.isSome_iff_exists.mp (h.index i hindex)
    exact ⟨_, by simp only [displayId, hindex, hid, hi]; exact ⟨rfl, rfl⟩⟩

theorem field_stat : fieldValue py time job "stat".toList = some job.stat.name := by
  rw [fieldValue, hpy.lower_names _ (by decide)]
  rfl

theorem field_exit_code (h : Readable py time now job) :
    ∃ v, fieldValue py time job "exit_code".toList = some v ∧ Cell py ';' v ∧
      rowExitCode py v = if job.stat.isFinished then some job.exitCode else none := by
  have hval : fieldValue py time job "exit_code".toList
      = if job.stat.isFinished then strInt? py job.exitCode else some ['-'] := by
    rw [fieldValue, hpy.lower_names _ (by decide)]
    rfl
  rw [hval]
  split
  · obtain ⟨v, hv⟩ := Option.isSome_iff_exists.mp h.exitCode
    exact ⟨v, hv, cell_strInt hpy hv, rowExitCode_strInt hpy hv⟩
  · exact ⟨_, rfl, cell_dash hpy, by rw [rowExitCode, if_pos (by decide)]⟩

theorem field_run_time (h : Readable py time now job) (htimed : Timed job) :
    ∃ v, fieldValue py time job "run_time".toList = some v ∧ Cell py ';' v ∧
      parseRunTime py v = .ok (job.startTime.map fun start => (elapsed time job start : ℤ)) := by
  have hval : fieldValue py time job "run_time".toList = match truthy job.startTime with
      | some start => (py.str? (elapsed time job start)).map (· ++ " second(s)".toList)
      | none => some ['-'] := by
    rw [fieldValue, hpy.lower_names _ (by decide)]
    rfl
  rw [hval, truthy_of_ne_zero htimed.start_ne_zero]
  rcases hstart : job.startTime with _ | start
  · exact ⟨_, rfl, cell_dash hpy, parseRunTime_dash hpy⟩
  · obtain ⟨v, hv⟩ := Option.isSome_iff_exists.mp (h.start start hstart).2
    obtain ⟨rfl, hlimit⟩ := Python.str?_eq_some hv
    exact ⟨_, by simp only [hv]; rfl, cell_seconds hpy _, parseRunTime_seconds hpy hlimit⟩

omit hpy in
/-- The local second of a recent time is a time of the calendar. -/
theorem localtime_spec (hnow : now.Valid) (hyear : 1001 ≤ now.fields.year)
    (hmax : InYears (now.toTime + dayMicros)) {t : ℚ} (h : Recent py now t) :
    (localtime py t).Valid ∧ (localtime py t).toTime = localSecond py t := by
  have hlo : midnight (daysBeforeYear 1001 + 1) ≤ now.toTime := by
    have hmono : (daysBeforeYear 1001 : ℤ) ≤ daysBeforeYear now.fields.year :=
      Int.ofNat_le.mpr (daysBeforeYear_mono (by decide) hyear)
    have hle := midnight_le (add_le_add_left hmono 1)
    have := hnow.1.year_le
    rw [Moment.toTime]
    omega
  have hfirst : midnight (daysBeforeYear 1001 + 1) = midnight 1 + 365242 * dayMicros := by decide
  have hday : (0 : ℤ) < dayMicros := by decide
  have hhi := hmax.2
  refine fieldsOf_spec ⟨?_, ?_⟩ (Dvd.intro_left _ rfl)
  · exact le_of_lt (by have := h.1; omega)
  · exact lt_of_le_of_lt h.2 (by omega)

/-- **A printed time is read back.** -/
theorem readTime_render (hnow : now.Valid) (hyear : 1001 ≤ now.fields.year)
    (hmax : InYears (now.toTime + dayMicros)) (calls : List (Text × Moment)) {t : ℚ}
    (h : Recent py now t) :
    readTime py calls now (fmtOTime py t) = .ok (some (localSecond py t)) := by
  obtain ⟨hvalid, htime⟩ := localtime_spec hnow hyear hmax h
  have hle : now.fields.year ≤ 9999 := hnow.1.2.1
  have hplace := placeYear_readLsfTime hpy (.inl rfl) hnow hmax
    (readsYear_of_four_digits hpy (by omega) hle)
      (readsYear_of_four_digits hpy (by omega) (by omega))
    hvalid (by rw [htime]; exact h.1) (by rw [htime]; exact h.2) (.inl rfl)
  rw [List.append_nil] at hplace
  rw [readTime, ((sound_cacheAfter calls).parseLsfTime _ now).1, fmtOTime, hplace, ← htime]
  rfl

theorem readTime_dash (calls : List (Text × Moment)) : readTime py calls now ['-'] = .ok none := by
  have hstrip := (cell_dash hpy).strip
  have hread : readLsfTime py (py.strip ['-']) now.fields.year = none := by
    have hdrop : dropSuffix py ['-'] = ['-'] := by
      rw [dropSuffix, List.reverse_singleton]
      exact if_neg fun hc => absurd hc.1 (by decide)
    rw [hstrip, readLsfTime, if_neg (by decide), hdrop, hstrip]
    exact if_pos (.inr rfl)
  rw [readTime, ((sound_cacheAfter calls).parseLsfTime _ now).1, hread]
  rfl

/-- **A field with a time**, which may be missing. -/
theorem field_time (hnow : now.Valid) (hyear : 1001 ≤ now.fields.year)
    (hmax : InYears (now.toTime + dayMicros)) (calls : List (Text × Moment)) {x : Option ℚ}
    (h : ∀ t ∈ x, t ≠ 0 ∧ Recent py now t) :
    Cell py ';' (timeText py x) ∧
      readTime py calls now (timeText py x) = .ok (x.map (localSecond py)) := by
  rw [timeText, truthy_of_ne_zero fun t ht => (h t ht).1]
  rcases x with _ | t
  · exact ⟨cell_dash hpy, readTime_dash hpy calls⟩
  · have hrecent := (h t rfl).2
    exact ⟨cell_render hpy (InRange.of_valid (localtime_spec hnow hyear hmax hrecent).1),
      readTime_render hpy hnow hyear hmax calls hrecent⟩

theorem field_start_time :
    fieldValue py time job "start_time".toList = some (timeText py job.startTime) := by
  rw [fieldValue, hpy.lower_names _ (by decide)]
  rfl

theorem field_finish_time : fieldValue py time job "finish_time".toList
    = some (timeText py (if job.stat.isFinished then job.finishTime else none)) := by
  rw [fieldValue, hpy.lower_names _ (by decide), timeText, apply_ite truthy]
  rfl

theorem field_cluster {cluster : Text} (h : ClusterName py cluster) :
    Cell py ';' (orDash cluster) ∧
      cleanField py (orDash cluster) = if cluster = [] then none
          else some (String.ofList cluster) := by
  rw [orDash]
  split
  case isTrue => exact ⟨cell_dash hpy, by simp [cleanField, (cell_dash hpy).strip]⟩
  case isFalse hne =>
    exact ⟨⟨h.separator, h.line, h.strip, hne⟩, by simp [cleanField, h.strip, hne, h.ne_dash]⟩

theorem field_source_cluster :
    fieldValue py time job "source_cluster".toList = some (orDash job.sourceCluster) := by
  rw [fieldValue, hpy.lower_names _ (by decide)]
  rfl

theorem field_forward_cluster :
    fieldValue py time job "forward_cluster".toList = some (orDash job.forwardCluster) := by
  rw [fieldValue, hpy.lower_names _ (by decide)]
  rfl

end Fields

/-! ## Rows -/

/-- What a cluster is reported as. -/
def clusterOf (cluster : Text) : Option String :=
  if cluster = [] then none else some (String.ofList cluster)

/-- **The status a format is to give of a job.** -/
def statusOf (py : Python) (time : ℚ) (fmt : BjobsFormat) (job : Job) : JobStatus :=
  let finished := job.stat.isFinished
  let core : JobStatus :=
    { jobId := job.jobId, arrayIndex := job.arrayIndex, state := job.stat.state
      exitCode := if finished then some job.exitCode else none }
  let full : JobStatus :=
    { core with
      runTimeS := job.startTime.map fun start => (elapsed time job start : ℤ)
      startTime := job.startTime.map (localSecond py)
      finishTime := if finished then job.finishTime.map (localSecond py) else none }
  match fmt with
  | .core => core
  | .full => full
  | .fullMc =>
    { full with
      sourceCluster := clusterOf job.sourceCluster, forwardCluster := clusterOf job.forwardCluster }

section Rows

variable {py : Python} (hpy : py.AsciiTables) {time : ℚ} {now : Moment} (hnow : now.Valid)
  (hyear : 1001 ≤ now.fields.year) (hmax : InYears (now.toTime + dayMicros))
  (calls : List (Text × Moment))

include hpy

/-- A row of cells is read cell by cell. -/
theorem parseRow_cells (parseTime : Text → Reading (Option Time)) {id stat exit : Text}
    {rest : List Text} {job : Job} (hid : displayId py job = some id)
    (hcells : ∀ v ∈ id :: stat :: exit :: rest, Cell py ';' v) {extras : RowExtras}
    (hextras : rowExtras py parseTime (rowState stat) (id :: stat :: exit :: rest) = .ok extras) :
    parseRow py parseTime ([';'].intercalate (id :: stat :: exit :: rest))
      = .ok (some
          { jobId := job.jobId, arrayIndex := job.arrayIndex, state := rowState stat
            exitCode := rowExitCode py exit, runTimeS := extras.runTimeS
            startTime := extras.startTime, finishTime := extras.finishTime
            sourceCluster := extras.sourceCluster, forwardCluster := extras.forwardCluster }) := by
  have hline := line_row (List.cons_ne_nil _ _) hcells (by decide)
  have hsplit := split_row (List.cons_ne_nil _ _) hcells
  obtain ⟨digits, index, hmatch, hnum, hindex⟩ := matchArrayId_displayId hpy hid
  simp only [parseRow, hline.strip, hline.ne_nil, if_false, hsplit, hmatch, hextras, hnum]
  rcases index with _ | index
  · rw [← Except.ok.inj hindex]
    rfl
  · have hsome : (py.readNumber index).map some = .ok job.arrayIndex := hindex
    change Except.bind ((py.readNumber index).map some) _ = _
    rw [hsome]
    rfl

include hnow hyear hmax

/-- **The row of a job is read as its status**, in every format. -/
theorem parseRow_job (fmt : BjobsFormat) {job : Job} (h : Readable py time now job)
    (htimed : Timed job) :
    ∃ vals, ((fmt.names.map String.toList).mapM (fieldValue py time job)) = some vals ∧
      Line py ([';'].intercalate vals) ∧
      parseRow py (readTime py calls now) ([';'].intercalate vals)
        = .ok (some (statusOf py time fmt job)) := by
  obtain ⟨id, hidval, hid⟩ := field_jobid hpy h
  obtain ⟨exit, hexitval, hexitcell, hexit⟩ := field_exit_code hpy h
  obtain ⟨run, hrunval, hruncell, hrun⟩ := field_run_time hpy h htimed
  have hidcell := cell_displayId hpy hid
  have hstat := cell_name hpy job.stat
  have hstart := field_time hpy hnow hyear hmax calls fun t ht =>
    ⟨htimed.start_ne_zero t ht, (h.start t ht).1⟩
  have hfinish := field_time hpy hnow hyear hmax calls (h.finish_recent htimed)
  have hstartval : fieldValue py time job "start_time".toList = some (timeText py job.startTime) :=
    field_start_time hpy
  have hfinishval : fieldValue py time job "finish_time".toList
      = some (timeText py (if job.stat.isFinished then job.finishTime else none)) :=
        field_finish_time hpy
  generalize timeText py job.startTime = start at hstart hstartval
  generalize timeText py (if job.stat.isFinished then job.finishTime else none) =
    finish at hfinish hfinishval
  have htimes : rowTimes py (readTime py calls now) job.stat.state run start finish = .ok
      { runTimeS := job.startTime.map fun start => (elapsed time job start : ℤ)
        startTime := job.startTime.map (localSecond py)
        finishTime := if job.stat.isFinished then job.finishTime.map (localSecond py)
            else none } := by
    simp only [rowTimes, hrun, hstart.2, hfinish.2, state_finished]
    split <;> rfl
  have hsource := field_cluster hpy h.source
  have hforward := field_cluster hpy h.forward
  have hfullMc : ∀ v ∈ [id, job.stat.name, exit, run, start, finish, orDash job.sourceCluster,
      orDash job.forwardCluster], Cell py ';' v := by
    simp only [List.forall_mem_cons]
    exact ⟨hidcell, hstat, hexitcell, hruncell, hstart.1, hfinish.1, hsource.1, hforward.1, by simp⟩
  have hfull : ∀ v ∈ [id, job.stat.name, exit, run, start, finish], Cell py ';' v :=
    fun v hv => hfullMc v (List.mem_append_left [_, _] hv)
  have hcore : ∀ v ∈ [id, job.stat.name, exit], Cell py ';' v :=
    fun v hv => hfull v (List.mem_append_left [_, _, _] hv)
  cases fmt
  case core =>
    refine ⟨[id, job.stat.name, exit], ?_, line_row (List.cons_ne_nil _ _) hcore (by decide), ?_⟩
    · simp only [BjobsFormat.names, List.map_cons, List.map_nil, List.mapM_cons,
        List.mapM_nil, hidval, field_stat hpy, hexitval]
      rfl
    · have hnone : rowExtras py (readTime py calls now) (rowState job.stat.name)
          [id, job.stat.name, exit] = .ok {} := rfl
      rw [parseRow_cells hpy _ hid hcore hnone, rowState_name, hexit]
      rfl
  case full =>
    refine ⟨[id, job.stat.name, exit, run, start, finish], ?_,
      line_row (List.cons_ne_nil _ _) hfull (by decide), ?_⟩
    · simp only [BjobsFormat.names, List.map_cons, List.map_nil, List.mapM_cons,
        List.mapM_nil, hidval, field_stat hpy, hexitval, hrunval, hstartval, hfinishval]
      rfl
    · rw [parseRow_cells hpy _ hid hfull (by rw [rowState_name, rowExtras, htimes]), rowState_name,
        hexit]
      rfl
  case fullMc =>
    refine ⟨[id, job.stat.name, exit, run, start, finish, orDash job.sourceCluster,
      orDash job.forwardCluster], ?_, line_row (List.cons_ne_nil _ _) hfullMc (by decide), ?_⟩
    · simp only [BjobsFormat.names, List.map_cons, List.map_nil, List.mapM_cons,
        List.mapM_nil, hidval, field_stat hpy, hexitval, hrunval, hstartval, hfinishval,
        field_source_cluster hpy,
        field_forward_cluster hpy]
      rfl
    · rw [parseRow_cells hpy _ hid hfullMc (by
          rw [rowState_name, rowExtras, htimes, hsource.2, hforward.2]
          rfl), rowState_name, hexit]
      rfl

theorem parseLines_jobs (fmt : BjobsFormat) {jobs : List Job}
    (h : ∀ job ∈ jobs, Readable py time now job)
    (htimed : ∀ job ∈ jobs, Timed job) :
    ∃ rows, (jobs.mapM fun job => (fmt.names.map String.toList).mapM (fieldValue py time job)) =
      some rows ∧
      (∀ l ∈ rows.map [';'].intercalate, Line py l) ∧
      parseLines py (readTime py calls now) (rows.map [';'].intercalate)
        = .ok (jobs.map (statusOf py time fmt)) := by
  induction jobs with
  | nil => exact ⟨[], rfl, by simp, rfl⟩
  | cons job jobs ih =>
    rw [List.forall_mem_cons] at h htimed
    obtain ⟨vals, hvals, hline, hrow⟩ := parseRow_job hpy hnow hyear hmax calls fmt h.1 htimed.1
    obtain ⟨rows, hrows, hlines, hparse⟩ := ih h.2 htimed.2
    refine ⟨vals :: rows, ?_, ?_, ?_⟩
    · rw [List.mapM_cons, hvals, hrows]
      rfl
    · rw [List.map_cons, List.forall_mem_cons]
      exact ⟨hline, hlines⟩
    · rw [List.map_cons, parseLines, hrow, hparse]
      rfl

end Rows

/-- **The response has one status a job, in order.** -/
def RoundTrips (py : Python) (time : ℚ) (calls : List (Text × Moment)) (now : Moment)
    (fmt : BjobsFormat)
    (jobs : List Job) : Prop :=
  (customFormat py time jobs fmt.spec true none).map (parseBjobs py (readTime py calls now))
    = some (.ok (jobs.map (statusOf py time fmt)))

/-- **`bjobs` of the mock is read back**, whatever was parsed before: for every list of jobs and
every one of the three formats. -/
theorem customFormat_roundTrips {py : Python} (hpy : py.AsciiTables) (time : ℚ)
    (calls : List (Text × Moment)) {now : Moment} (hnow : now.Valid)
    (hyear : 1001 ≤ now.fields.year)
    (hmax : InYears (now.toTime + dayMicros)) (fmt : BjobsFormat) {jobs : List Job}
    (h : ∀ job ∈ jobs, Readable py time now job) (htimed : ∀ job ∈ jobs, Timed job) :
    RoundTrips py time calls now fmt jobs := by
  obtain ⟨spec, hextract, hcols⟩ := columns_of_format hpy fmt
  obtain ⟨rows, hrows, hlines, hparse⟩ := parseLines_jobs hpy hnow hyear hmax calls fmt h htimed
  have hmapM :
    (jobs.mapM fun job => (fmt.names.map fun name => (name.toList, (none : Option ℤ))).mapM
      fun c => fieldValue py time job c.1) = some rows := by
    rw [← hrows]
    refine congrArg (fun f => jobs.mapM f) (funext fun job => ?_)
    rw [List.mapM_map, List.mapM_map]
    rfl
  have htext : customFormat py time jobs fmt.spec true none
      = some (['\n'].intercalate (rows.map [';'].intercalate)) := by
    rw [customFormat, hextract]
    simp only [hcols, hmapM]
    rfl
  rw [RoundTrips, htext, Option.map_some, parseBjobs, splitlines_rows hlines, hparse]

/-- A spring morning in 2026. -/
def april : Moment := { fields := { year := 2026, month := 4, day := 2, hour := 8 } }

/-- An element of an array that was forwarded and has failed, in November. -/
def failed : Job :=
  { jobId := 1007, arrayIndex := some 3, stat := .exit, exitCode := -2
    startTime := some (3524750399 / 2), finishTime := some 1762376000
    sourceCluster := "east".toList, forwardCluster := "west 2".toList }

theorem clusterName_nil (py : Python) : ClusterName py [] :=
  ⟨List.not_mem_nil, fun _ h => absurd h List.not_mem_nil, rfl, by simp⟩

theorem ClusterName.of_cell {py : Python} {cluster : Text} (h : Cell py ';' cluster)
    (hne : cluster ≠ ['-']) : ClusterName py cluster :=
  ⟨h.separator, h.line, h.strip, hne⟩

theorem readable_failed : Readable Python.ascii 0 april failed where
  jobId := by decide +kernel
  index := by decide +kernel
  exitCode := by decide +kernel
  start := by decide +kernel
  finish := by decide +kernel
  source :=
    .of_cell (cell_of_all Python.ascii_tables (by decide) (by decide) (by decide)) (by decide)
  forward :=
    .of_cell (cell_of_all Python.ascii_tables (by decide) (by decide) (by decide)) (by decide)

theorem readable_pending : Readable Python.ascii 0 april { jobId := 5 } where
  jobId := by decide +kernel
  index := by simp
  exitCode := by decide +kernel
  start := by simp
  finish := by simp
  source := clusterName_nil _
  forward := clusterName_nil _

/-- A forwarded element of an array and a job that waits. -/
theorem customFormat_roundTrips_array :
    RoundTrips Python.ascii 0 [] april .fullMc [failed, { jobId := 5 }] :=
  customFormat_roundTrips Python.ascii_tables 0 [] (by decide +kernel) (by decide)
    (by decide +kernel)
    .fullMc (List.forall_mem_cons.mpr ⟨readable_failed, by simpa using readable_pending⟩)
    (List.forall_mem_cons.mpr ⟨⟨by decide +kernel, by decide +kernel⟩,
      by simpa using ⟨by decide, by decide⟩⟩)

/-- What comes back, where the response does not raise. -/
def response (py : Python) (time : ℚ) (now : Moment) (fmt : BjobsFormat) (jobs : List Job) :
    Option (Option (List JobStatus)) :=
  (customFormat py time jobs fmt.spec true none).map fun text =>
    (parseBjobs py (readTime py [] now) text).toOption

theorem not_roundTrips_of_response {py : Python} {time : ℚ} {now : Moment} {fmt : BjobsFormat}
    {jobs : List Job} (h : response py time now fmt jobs ≠
      some (some (jobs.map (statusOf py time fmt)))) :
    ¬RoundTrips py time [] now fmt jobs := by
  intro htrip
  rw [RoundTrips, Option.map_eq_some_iff] at htrip
  obtain ⟨text, htext, hparse⟩ := htrip
  exact h (by rw [response, htext, Option.map_some, hparse]; rfl)

/-- A job that runs since `start`. -/
def running (start : ℚ) : Job := { jobId := 5, stat := .run, startTime := some start }

theorem readable_running {time start : ℚ} {now : Moment} (hrecent : Recent Python.ascii now start)
    (helapsed : (Python.ascii.str? (elapsed time (running start) start)).isSome = true) :
    Readable Python.ascii time now (running start) where
  jobId := show (Python.ascii.str? 5).isSome = true by decide +kernel
  index := by simp [running]
  exitCode := show (strInt? Python.ascii 0).isSome = true by decide +kernel
  start t ht := by
    obtain rfl : start = t := by simpa [running] using ht
    exact ⟨hrecent, helapsed⟩
  finish := by simp [running, Stat.isFinished]
  source := clusterName_nil _
  forward := clusterName_nil _

/-- Every list of readable jobs round-trips at every moment, if the moment and the jobs are in
`domain`. -/
def RoundTripsWithin (domain : Moment → Job → Prop) : Prop :=
  ∀ (py : Python) (time : ℚ) (calls : List (Text × Moment)) (now : Moment) (fmt : BjobsFormat)
    (jobs : List Job), py.AsciiTables → now.Valid → (∀ job ∈ jobs, Readable py time now job) →
    (∀ job ∈ jobs, domain now job) → RoundTrips py time calls now fmt jobs

/-- **None of the conditions can be left out**: a start at the epoch itself is printed as none; a
year of three digits is no year to `strptime`; and on the last day of the calendar the response
raises, and gives no row at all. -/
theorem not_customFormat_roundTrips :
    ¬RoundTripsWithin (fun now _ => 1001 ≤ now.fields.year ∧ InYears (now.toTime + dayMicros)) ∧
      ¬RoundTripsWithin (fun now job => Timed job ∧ InYears (now.toTime + dayMicros)) ∧
      ¬RoundTripsWithin (fun now job => Timed job ∧ 1001 ≤ now.fields.year) := by
  have hno (now : Moment) (start : ℚ) (hnow : now.Valid) (hrecent : Recent Python.ascii now start)
      (helapsed : (Python.ascii.str? (elapsed start (running start) start)).isSome = true)
      (hresponse : response Python.ascii start now .full [running start]
        ≠ some (some ([running start].map (statusOf Python.ascii start .full))))
      (domain : Moment → Job → Prop) (hdomain : domain now (running start)) :
      ¬RoundTripsWithin domain := fun hall =>
    not_roundTrips_of_response hresponse (hall Python.ascii start [] now .full [running start]
      Python.ascii_tables hnow (by simpa using readable_running hrecent helapsed)
        (by simpa using hdomain))
  refine ⟨?_, ?_, ?_⟩
  · exact hno { fields := { year := 1970, month := 1, day := 1, hour := 3 } } 0 (by decide +kernel)
      (by decide +kernel) (by decide +kernel) (by decide +kernel) _ (by decide +kernel)
  · exact hno { fields := { year := 999, month := 1, day := 2 } } (-30641673600) (by decide +kernel)
      (by decide +kernel) (by decide +kernel) (by decide +kernel) _
      ⟨⟨by decide +kernel, by decide +kernel⟩, by decide +kernel⟩
  · exact hno { fields := { year := 9999, month := 12, day := 31 } } 253402214400
      (by decide +kernel)
      (by decide +kernel) (by decide +kernel) (by decide +kernel) _
      ⟨⟨by decide +kernel, by decide +kernel⟩, by decide +kernel⟩

end Lsfmgr.Mock
