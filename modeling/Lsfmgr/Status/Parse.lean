import Mathlib
import Lsfmgr.Machinery.Dict
import Lsfmgr.Machinery.Datetime
import Lsfmgr.Machinery.Prog
import Lsfmgr.Store.States

/-!
# Status/Parse — the payload of a status callback, row by row

A row that cannot be interpreted is dropped, and a time or an exit code that cannot be is `None`; so
one bad row should not cost the others.  Most conversions are guarded.  The ones that are not make
`parse_internal_jobs` raise, and the whole response is lost:

* `int` of ten or thirteen digits that are not all decimal digits;
* `astimezone` of a time with a zone that leaves the years 1 to 9999 on the way to local time;
* `str` of an integer, and `int` of the digits of an id, beyond the limit on their length.

`RowReadable` says that a row has none of these, and `parse_eq_iff` that this is exactly when the
response is the concatenation of its rows.
-/

namespace Lsfmgr.Status

open Machinery

/-- A JSON value. -/
inductive Json
  | null
  | bool (b : Bool)
  | int (n : ℤ)
  /-- A floating-point number, by its `repr`. -/
  | float (repr : String)
  | str (s : String)
  /-- A list or dict, by its `repr`, or `none` if that raises. -/
  | other (repr : Option String)

abbrev Row := Dict String Json

/-- `_pick`: the value of the first key that has one other than null. -/
def pick (job : Row) (keys : List String) : Option Json :=
  keys.findSome? fun key =>
    match job.get? key with
    | some .null => none
    | v => v

def keysId : List String := ["dataId", "dataid", "jobId", "jobid", "id"]
def keysStat : List String := ["stat", "status", "state"]
def keysStart : List String := ["startTime", "start_time"]
def keysFinish : List String := ["finishTime", "finish_time", "endTime", "end_time"]
def keysExit : List String := ["exitStatus", "exitCode", "exit_code", "exit_status"]
def keysCluster : List String := ["cluster", "clusterName", "cluster_name"]

/-- `_EMPTY` -/
def emptyTexts : List (List Char) :=
  ["", "-", "null", "none", "nil", "n/a"].map String.toList

/-- `_STAT_ALIASES` -/
def statAliases : List (List Char × JobState) :=
  [("RUNNING", JobState.run), ("PENDING", .pend), ("EXITED", .exit), ("UNKNOWN", .unkwn)].map
    fun e => (e.1.toList, e.2)

/-- What `_DATA_ID_RE` matches: the digits of the id and of the index, and the suffix. -/
structure DataId where
  digits : List ℕ
  index : Option (List ℕ)
  suffix : Option (List Char)

section

variable (py : Python)

/-- `str` of a value; `none` where it raises. -/
def Json.str? : Json → Option (List Char)
  | .null => some "None".toList
  | .bool true => some "True".toList
  | .bool false => some "False".toList
  | .int n => if py.withinLimit (toString n.natAbs).length then some (toString n).toList else none
  | .float repr => some repr.toList
  | .str s => some s.toList
  | .other repr => repr.map String.toList

/-- A text without its blanks, unless it stands for no value. -/
def cleanText (text : List Char) : Option (List Char) :=
  let text := py.strip text
  if py.lower text ∈ emptyTexts then none else some text

/-- `_clean` -/
def clean : Option Json → Except PyError (Option (List Char))
  | none => .ok none
  | some v =>
    match v.str? py with
    | none => .error .valueError
    | some text => .ok (cleanText py text)

/-- `_DATA_ID_RE.match` -/
def matchDataId (text : List Char) : Option DataId :=
  let (digits, rest) := py.spanDigits text
  let (index, rest) := match rest with
    | '[' :: l =>
      match py.spanDigits l with
      | (d :: ds, ']' :: l) => (some (d :: ds), l)
      | _ => (none, rest)
    | _ => (none, rest)
  if digits = [] then none
  else if atEnd rest then some ⟨digits, index, none⟩
  else
    match rest with
    | '.' :: l =>
      let suffix := before '\n' l
      if suffix ≠ [] ∧ atEnd (l.drop suffix.length) then some ⟨digits, index, some suffix⟩ else none
    | _ => none

/-! ## Times -/

/-- The zone at the end of a text, `_TZ_RE` at this place: `Z`, or the sign and the values of the
four digits. -/
def zoneHere : List Char → Option (Option (Char × ℕ × ℕ))
  | 'Z' :: l => if atEnd l then some none else none
  | sign :: a :: b :: l =>
    if sign = '+' ∨ sign = '-' then
      match py.decimal? a, py.decimal? b with
      | some a, some b =>
        let minutes (l : List Char) : Option ℕ :=
          match l with
          | c :: d :: l =>
            match py.decimal? c, py.decimal? d with
            | some c, some d => if atEnd l then some (10 * c + d) else none
            | _, _ => none
          | _ => none
        let colon := match l with
          | ':' :: l => minutes l
          | _ => none
        (colon.or (minutes l)).map fun m => some (sign, 10 * a + b, m)
      | _, _ => none
    else none
  | _ => none

/-- `_TZ_RE.search`: what is before the first match, and the match. -/
def searchZone : List Char → Option (List Char × Option (Char × ℕ × ℕ))
  | [] => none
  | c :: l =>
    match zoneHere py (c :: l) with
    | some zone => some ([], zone)
    | none => (searchZone l).map fun m => (c :: m.1, m.2)

/-- `_split_tz`: the text without its zone, and the offset; `none` where it raises. -/
def splitTz (text : List Char) : Option (List Char × Option ℤ) :=
  match searchZone py text with
  | none => some (text, none)
  | some (body, none) => some (py.strip body, some 0)
  | some (body, some (sign, hours, minutes)) =>
    if 24 ≤ hours ∨ 60 ≤ minutes then none
    else
      let delta : ℤ := (hours * 60 + minutes) * 60 * 1000000
      some (py.strip body, some (if sign = '-' then -delta else delta))

/-- The separators made those of the formats, and fractions of seconds cut off. -/
def normalTime (body : List Char) : List Char :=
  let parts := partition 'T' body
  let parts := if parts.2.1 then parts else partition ' ' body
  let datePart := replaceChar '/' '-' (replaceChar ':' '-' parts.1)
  let timePart := before '+' (before '.' parts.2.2)
  py.strip (datePart ++ ' ' :: timePart)

/-- `_TIME_FORMATS` -/
def timeFormats : List (List Directive) :=
  let date := [.year, .literal '-', .month, .literal '-', .day]
  let minutes := date ++ [.space, .hour, .literal ':', .minute]
  [minutes ++ [.literal ':', .second], minutes, date]

/-- The first format that fits. -/
def readTime (body : List Char) : Option ℤ :=
  timeFormats.findSome? (py.strptime (normalTime py body))

/-- The text is taken for the seconds, or milliseconds, of an epoch. -/
def isEpoch (text : List Char) : Bool :=
  py.allDigits text && (text.length = 10 || text.length = 13)

/-- `parse_time` of a cleaned text. -/
def parseTimeText (text : List Char) : Except PyError (Option Time) :=
  if isEpoch py text then
    -- not within the `try`
    match py.int? text with
    | none => .error .valueError
    | some ticks => .ok (py.fromTimestamp
        (if text.length = 13 then millisMicros ticks.toNat else ticks * 1000000))
  else
    match splitTz py text with
    | none => .ok none
    | some (body, zone) =>
      match readTime py body with
      | none => .ok none
      | some dt =>
        match zone with
        | none => .ok (some dt)
        | some offset =>
          match py.asTimezone dt offset with
          | none => .error .overflowError
          | some t => .ok (some t)

/-- `parse_time` -/
def parseTime (v : Option Json) : Except PyError (Option Time) := do
  match ← clean py v with
  | none => return none
  | some text => parseTimeText py text

/-! ## Rows -/

/-- `_job_state` -/
def jobState (raw : Option (List Char)) : JobState :=
  (raw.bind fun raw =>
    let key := py.upper (py.strip raw)
    (lsfStatMap.lookup key).or (statAliases.lookup key)).getD .unkwn

/-- `_exit_code` -/
def exitCode (job : Row) : Except PyError (Option ℤ) := do
  match ← clean py (pick job keysExit) with
  | none => return none
  | some raw => return py.int? raw

/-- `run_time_s`: up to the end of the job, or to the time of the snapshot. -/
def runTime (start finish : Option Time) (now : Time) : Option ℤ :=
  start.bind fun start =>
    let stop := finish.getD now
    if start ≤ stop then some ((stop - start).tdiv 1000000) else none

/-- The finish time, which is an estimate until the job has ended. -/
def parseFinish (state : JobState) (v : Option Json) : Except PyError (Option Time) :=
  if state = .done ∨ state = .exit then parseTime py v else .ok none

/-- `int` of the digits of an index, if there is one. -/
def readIndex : Option (List ℕ) → Except PyError (Option ℕ)
  | none => .ok none
  | some ds => (py.readNumber ds).map some

/-- `job_status_from_dict` -/
def jobStatusFromDict (job : Row) (now : Time) : Except PyError (Option JobStatus) := do
  match ← clean py (pick job keysId) with
  | none => return none
  | some rawId =>
    match matchDataId py rawId with
    | none => return none
    | some m =>
      let state := jobState py (← clean py (pick job keysStat))
      let startTime ← parseTime py (pick job keysStart)
      let finishTime ← parseFinish py state (pick job keysFinish)
      let cluster := (← clean py (pick job keysCluster)).or (m.suffix.bind (cleanText py))
      let jobId ← py.readNumber m.digits
      let arrayIndex ← readIndex py m.index
      let exitCode ← exitCode py job
      return some
        { jobId, arrayIndex, state, exitCode
          runTimeS := runTime startTime finishTime now
          startTime, finishTime
          sourceCluster := cluster.map String.ofList }

/-! ## Payloads -/

/-- An item of the job list: a dict, or something else. -/
inductive Item
  | row (job : Row)
  | other

/-- What `jobs` of an envelope may be. -/
inductive Jobs
  | null
  | list (items : List Item)
  | other

/-- What a callback returns: nothing, a dict with or without `jobs`, a list, or something else. -/
inductive Payload
  | null
  | envelope (jobs : Option Jobs)
  | list (items : List Item)
  | other

/-- The list of jobs of a payload. -/
def Payload.items : Payload → Except PyError (List Item)
  | .envelope (some .null) => .ok []
  | .envelope (some (.list items)) | .list items => .ok items
  | .null | .envelope none | .envelope (some .other) | .other => .error .valueError

/-- The loop of `parse_internal_jobs`, before the filter. -/
def parseItems (now : Time) : List Item → Except PyError (List JobStatus)
  | [] => .ok []
  | .other :: items => parseItems now items
  | .row job :: items => do
    let st ← jobStatusFromDict py job now
    let sts ← parseItems now items
    return st.toList ++ sts

/-- `parse_internal_jobs` -/
def parseInternalJobs (payload : Payload) (now : Time) (keepIds : Option (Finset ℕ)) :
    Except PyError (List JobStatus) := do
  let items ← payload.items
  let sts ← parseItems py now items
  -- rows of which none can be interpreted are an outage, not the absence of jobs
  if items ≠ [] ∧ sts = [] then .error .valueError
  else return sts.filter fun st => keepIds.all (st.jobId ∈ ·)

/-! ## What can be read -/

/-- A field by itself: a value that cannot be read is no value. -/
def textOf (v : Option Json) : Option (List Char) :=
  v.bind fun v => (v.str? py).bind (cleanText py)

/-- A time by itself. -/
def timeOf (v : Option Json) : Option Time :=
  (textOf py v).bind fun text =>
    match parseTimeText py text with
    | .ok t => t
    | .error _ => none

/-- The index of an id by itself; `none` where it cannot be read. -/
def indexOf (index : Option (List ℕ)) : Option (Option ℕ) :=
  match index with
  | none => some none
  | some ds => (py.number? ds).map some

/-- **A row by itself**: it is dropped if its id cannot be interpreted; any other field that cannot
be is without a value. -/
def ownParse (now : Time) (job : Row) : Option JobStatus :=
  (textOf py (pick job keysId)).bind fun rawId => (matchDataId py rawId).bind fun m =>
    (py.number? m.digits).bind fun jobId =>
    (indexOf py m.index).bind fun arrayIndex =>
    let state := jobState py (textOf py (pick job keysStat))
    let startTime := timeOf py (pick job keysStart)
    let finishTime :=
      if state = JobState.done ∨ state = .exit then timeOf py (pick job keysFinish) else none
    some
      { jobId, arrayIndex, state
        exitCode := (textOf py (pick job keysExit)).bind py.int?
        runTimeS := runTime startTime finishTime now
        startTime, finishTime
        sourceCluster := ((textOf py (pick job keysCluster)).or
          (m.suffix.bind (cleanText py))).map String.ofList }

/-- `str` of the value does not raise. -/
def Printable (v : Option Json) : Prop := ∀ x ∈ v, (x.str? py).isSome = true

/-- `parse_time` of the text does not raise: digits that are taken for an epoch are decimal ones
(`int` takes them), and a time with a zone stays within the years 1 to 9999, in UTC and in local
time. -/
structure TextReadable (text : List Char) : Prop where
  epoch : isEpoch py text = true → (py.int? text).isSome = true
  zone : isEpoch py text = false → ∀ body offset dt, splitTz py text = some (body, some offset) →
    readTime py body = some dt →
    InYears (dt - offset) ∧ InYears (dt - offset + py.utcOffset (dt - offset))

structure TimeReadable (v : Option Json) : Prop where
  printable : Printable py v
  text : ∀ text ∈ textOf py v, TextReadable py text

/-- The fields of a row with this id can be read. -/
structure FieldsReadable (job : Row) (m : DataId) : Prop where
  stat : Printable py (pick job keysStat)
  start : TimeReadable py (pick job keysStart)
  finish : jobState py (textOf py (pick job keysStat)) = .done ∨
    jobState py (textOf py (pick job keysStat)) = .exit → TimeReadable py (pick job keysFinish)
  cluster : Printable py (pick job keysCluster)
  digits : py.withinLimit m.digits.length = true
  index : ∀ ds ∈ m.index, py.withinLimit ds.length = true
  exit : Printable py (pick job keysExit)

/-- **No conversion of the row raises.**  Of a row without an id only the id is read. -/
structure RowReadable (job : Row) : Prop where
  id : Printable py (pick job keysId)
  fields : ∀ rawId ∈ textOf py (pick job keysId), ∀ m ∈ matchDataId py rawId,
    FieldsReadable py job m

/-! ## Each conversion returns exactly where it can read -/

variable {py}

theorem clean_eq_ok {v : Option Json} {t : Option (List Char)} :
    clean py v = .ok t ↔ Printable py v ∧ textOf py v = t := by
  rcases v with _ | v
  · simp [clean, Printable, textOf]
  · rcases hv : v.str? py with _ | text <;> simp [clean, Printable, textOf, hv]

theorem parseTimeText_isOk {text : List Char} :
    (∃ t, parseTimeText py text = .ok t) ↔ TextReadable py text := by
  rw [parseTimeText]
  split
  case isTrue hepoch =>
    have hno : ¬isEpoch py text = false := by rw [hepoch]; decide
    rcases hint : py.int? text with _ | ticks
    · constructor
      · rintro ⟨t, ⟨⟩⟩
      · intro h
        have := h.epoch hepoch
        rw [hint] at this
        cases this
    · exact ⟨fun _ => ⟨fun _ => by rw [hint]; rfl, fun h => absurd h hno⟩, fun _ => ⟨_, rfl⟩⟩
  case isFalse hepoch =>
    -- only a time with a zone can fail
    have hzone : TextReadable py text ↔ ∀ body offset dt,
        splitTz py text = some (body, some offset) → readTime py body = some dt →
        InYears (dt - offset) ∧ InYears (dt - offset + py.utcOffset (dt - offset)) :=
      ⟨fun h => h.zone (by simpa using hepoch), fun h => ⟨fun h' => absurd h' hepoch, fun _ => h⟩⟩
    rw [hzone]
    rcases hsplit : splitTz py text with _ | ⟨body, zone⟩
    · exact ⟨fun _ _ _ _ h => (by cases h), fun _ => ⟨_, rfl⟩⟩
    · rcases hread : readTime py body with _ | dt
      · refine ⟨fun _ body' offset dt h hdt => ?_, fun _ => ⟨none, by simp only [hread]⟩⟩
        obtain ⟨rfl, -⟩ := Prod.mk.inj (Option.some.inj h)
        rw [hread] at hdt
        cases hdt
      · rcases zone with _ | offset
        · exact ⟨fun _ _ _ _ h => (by cases h), fun _ => ⟨some dt, by simp only [hread]⟩⟩
        · simp only [hread, Python.asTimezone]
          constructor
          · intro h body' offset' dt' heq hdt
            obtain ⟨rfl, hoff⟩ := Prod.mk.inj (Option.some.inj heq)
            obtain rfl := Option.some.inj hoff
            obtain rfl := Option.some.inj (hread.symm.trans hdt)
            by_contra hout
            rw [if_neg hout] at h
            obtain ⟨t, ⟨⟩⟩ := h
          · intro h
            rw [if_pos (h body offset dt rfl hread)]
            exact ⟨_, rfl⟩

theorem parseTime_eq_ok {v : Option Json} {t : Option Time} :
    parseTime py v = .ok t ↔ TimeReadable py v ∧ timeOf py v = t := by
  rw [parseTime, except_bind_eq_ok]
  constructor
  · rintro ⟨text, hclean, ht⟩
    obtain ⟨hprint, htext⟩ := clean_eq_ok.mp hclean
    rcases text with _ | text
    · exact ⟨⟨hprint, by rw [htext]; rintro _ ⟨⟩⟩, by rw [timeOf, htext]; exact Except.ok.inj ht⟩
    · refine ⟨⟨hprint, ?_⟩, ?_⟩
      · rw [htext]
        rintro _ ⟨⟩
        exact parseTimeText_isOk.mp ⟨t, ht⟩
      · rw [timeOf, htext, Option.bind_some]
        exact (congrArg (fun x : Except PyError (Option Time) => match x with
          | .ok t => t
          | .error _ => none) ht : _)
  · rintro ⟨⟨hprint, hread⟩, rfl⟩
    refine ⟨textOf py v, clean_eq_ok.mpr ⟨hprint, rfl⟩, ?_⟩
    rcases htext : textOf py v with _ | text
    · rw [timeOf, htext]
      rfl
    · obtain ⟨t, ht⟩ := parseTimeText_isOk.mpr (hread text htext)
      rw [timeOf, htext, Option.bind_some, ht]
      exact ht

theorem exitCode_eq_ok {job : Row} {c : Option ℤ} : exitCode py job = .ok c ↔
    Printable py (pick job keysExit) ∧ (textOf py (pick job keysExit)).bind py.int? = c := by
  rw [exitCode, except_bind_eq_ok]
  constructor
  · rintro ⟨text, hclean, hc⟩
    obtain ⟨hprint, htext⟩ := clean_eq_ok.mp hclean
    refine ⟨hprint, ?_⟩
    rw [htext]
    rcases text with _ | text <;> exact Except.ok.inj hc
  · rintro ⟨hprint, rfl⟩
    refine ⟨_, clean_eq_ok.mpr ⟨hprint, rfl⟩, ?_⟩
    rcases textOf py (pick job keysExit) with _ | text <;> rfl

theorem readNumber_eq_ok {ds : List ℕ} {n : ℕ} :
    py.readNumber ds = .ok n ↔ py.number? ds = some n := by
  rw [Python.readNumber]
  rcases py.number? ds with _ | m <;> simp

theorem readIndex_eq_ok {index : Option (List ℕ)} {i : Option ℕ} :
    readIndex py index = .ok i ↔ indexOf py index = some i := by
  rcases index with _ | ds
  · simp [readIndex, indexOf]
  · rw [readIndex, indexOf, Python.readNumber]
    rcases py.number? ds with _ | m <;> simp [Except.map]

theorem number?_isSome {ds : List ℕ} :
    (∃ n, py.number? ds = some n) ↔ py.withinLimit ds.length = true := by
  rw [Python.number?]
  split
  case isTrue h => exact ⟨fun _ => h, fun _ => ⟨_, rfl⟩⟩
  case isFalse h => exact ⟨fun ⟨_, h'⟩ => (by cases h'), fun h' => absurd h' h⟩

theorem indexOf_isSome {index : Option (List ℕ)} : (∃ i, indexOf py index = some i) ↔
    ∀ ds ∈ index, py.withinLimit ds.length = true := by
  rcases index with _ | ds
  · simp [indexOf]
  · rw [indexOf]
    simp only [Option.map_eq_some_iff, Option.mem_def, Option.some.injEq,
      forall_eq', ← number?_isSome]
    exact ⟨fun ⟨_, n, hn, _⟩ => ⟨n, hn⟩, fun ⟨n, hn⟩ => ⟨_, n, hn, rfl⟩⟩

theorem parseFinish_eq_ok {state : JobState} {v : Option Json} {t : Option Time} :
    parseFinish py state v = .ok t ↔ (state = .done ∨ state = .exit → TimeReadable py v) ∧
      (if state = .done ∨ state = .exit then timeOf py v else none) = t := by
  rw [parseFinish]
  split
  case isTrue h => rw [parseTime_eq_ok, forall_prop_of_true h]
  case isFalse h => simp [h]

/-- **A row is parsed exactly where it can be read**, and then to what it is by itself. -/
theorem jobStatusFromDict_eq_ok {job : Row} {now : Time} {st : Option JobStatus} :
    jobStatusFromDict py job now = .ok st ↔ RowReadable py job ∧ ownParse py now job = st := by
  rw [jobStatusFromDict, except_bind_eq_ok]
  constructor
  · rintro ⟨rawId, hclean, hst⟩
    obtain ⟨hprint, hraw⟩ := clean_eq_ok.mp hclean
    rcases rawId with _ | rawId
    · obtain rfl := Except.ok.inj hst
      exact ⟨⟨hprint, by rw [hraw]; rintro _ ⟨⟩⟩, by rw [ownParse, hraw]; rfl⟩
    · rcases hm : matchDataId py rawId with _ | m
      · simp only [hm] at hst
        obtain rfl := Except.ok.inj hst
        refine ⟨⟨hprint, ?_⟩, ?_⟩
        · rw [hraw]
          rintro _ ⟨⟩ m hm'
          rw [hm] at hm'
          cases hm'
        · rw [ownParse, hraw, Option.bind_some, hm]
          rfl
      · simp only [hm, except_bind_eq_ok, clean_eq_ok, parseTime_eq_ok,
          parseFinish_eq_ok, readNumber_eq_ok, readIndex_eq_ok, exitCode_eq_ok] at hst
        obtain ⟨stat, ⟨hstat, rfl⟩, start, ⟨hstart, rfl⟩, finish, ⟨hfinish, rfl⟩, cluster,
          ⟨hcluster, rfl⟩, jobId, hjobId, index, hindex, exit, ⟨hexit, rfl⟩, hst⟩ := hst
        obtain rfl := Except.ok.inj hst
        refine ⟨⟨hprint, ?_⟩, ?_⟩
        · rw [hraw]
          rintro _ ⟨⟩ m' hm'
          obtain rfl := Option.some.inj (hm.symm.trans hm')
          exact ⟨hstat, hstart, hfinish, hcluster, number?_isSome.mp ⟨_, hjobId⟩,
            indexOf_isSome.mp ⟨_, hindex⟩, hexit⟩
        · rw [ownParse, hraw, Option.bind_some, hm, Option.bind_some, hjobId, Option.bind_some,
            hindex, Option.bind_some]
  · rintro ⟨⟨hprint, hfields⟩, rfl⟩
    refine ⟨_, clean_eq_ok.mpr ⟨hprint, rfl⟩, ?_⟩
    rcases hraw : textOf py (pick job keysId) with _ | rawId
    · rw [ownParse, hraw]
      rfl
    · rcases hm : matchDataId py rawId with _ | m
      · rw [ownParse, hraw, Option.bind_some, hm]
        simp only [hm]
        rfl
      · have hf := hfields rawId hraw m hm
        obtain ⟨jobId, hjobId⟩ := number?_isSome.mpr hf.digits
        obtain ⟨index, hindex⟩ := indexOf_isSome.mpr hf.index
        simp only [hm, except_bind_eq_ok, clean_eq_ok, parseTime_eq_ok,
          parseFinish_eq_ok, readNumber_eq_ok, readIndex_eq_ok, exitCode_eq_ok]
        refine ⟨_, ⟨hf.stat, rfl⟩, _, ⟨hf.start, rfl⟩, _, ⟨hf.finish, rfl⟩, _, ⟨hf.cluster, rfl⟩,
          jobId, hjobId, index, hindex, _, ⟨hf.exit, rfl⟩, ?_⟩
        rw [ownParse, hraw, Option.bind_some, hm, Option.bind_some, hjobId, Option.bind_some,
          hindex, Option.bind_some]
        rfl

/-! ## The whole response -/

/-- The rows of a list of items. -/
def Item.row? : Item → Option Row
  | row job => some job
  | other => none

/-- What the rows are, each by itself. -/
def ownParses (py : Python) (now : Time) (items : List Item) : List JobStatus :=
  (items.filterMap Item.row?).filterMap (ownParse py now)

theorem ownParses_row (now : Time) (job : Row) (items : List Item) :
    ownParses py now (.row job :: items)
      = (ownParse py now job).toList ++ ownParses py now items := by
  have hcons : (Item.row job :: items).filterMap Item.row? = job :: items.filterMap Item.row? := rfl
  rw [ownParses, hcons, List.filterMap_cons, ownParses]
  rcases ownParse py now job with _ | st <;> rfl

theorem parseItems_eq_ok {now : Time} {items : List Item} {sts : List JobStatus} :
    parseItems py now items = .ok sts ↔
      (∀ job ∈ items.filterMap Item.row?, RowReadable py job) ∧ ownParses py now items = sts := by
  induction items generalizing sts with
  | nil => simp [parseItems, ownParses]
  | cons item items ih =>
    cases item with
    | other => exact ih
    | row job =>
      have hall : (∀ job' ∈ (Item.row job :: items).filterMap Item.row?, RowReadable py job') ↔
          RowReadable py job ∧ ∀ job' ∈ items.filterMap Item.row?, RowReadable py job' :=
        List.forall_mem_cons
      simp only [parseItems, except_bind_eq_ok, jobStatusFromDict_eq_ok, ih, hall, ownParses_row]
      constructor
      · rintro ⟨st, ⟨hread, rfl⟩, rest, ⟨hrest, rfl⟩, hsts⟩
        exact ⟨⟨hread, hrest⟩, Except.ok.inj hsts⟩
      · rintro ⟨⟨hread, hrest⟩, rfl⟩
        exact ⟨_, ⟨hread, rfl⟩, _, ⟨hrest, rfl⟩, rfl⟩

/-- **A response is the concatenation of its rows exactly where each of them can be read**: an extra
row at any place, in a list with at least one row that parses. -/
theorem parse_eq_iff {payload : Payload} {front back : List Item} {extra : Row} {now : Time}
    (hitems : payload.items = .ok (front ++ .row extra :: back))
    (hsome : ∃ job st, .row job ∈ front ++ back ∧ jobStatusFromDict py job now = .ok (some st))
    (keepIds : Option (Finset ℕ)) :
    parseInternalJobs py payload now keepIds
        = .ok ((ownParses py now (front ++ .row extra :: back)).filter fun st =>
            keepIds.all (st.jobId ∈ ·)) ↔
      ∀ job ∈ (front ++ .row extra :: back).filterMap Item.row?, RowReadable py job := by
  obtain ⟨job, st, hjob, hst⟩ := hsome
  have hmem : Item.row job ∈ front ++ .row extra :: back := by
    rcases List.mem_append.mp hjob with h | h
    · exact List.mem_append_left _ h
    · exact List.mem_append_right _ (List.mem_cons_of_mem _ h)
  have hparsed : ownParses py now (front ++ .row extra :: back) ≠ [] := by
    refine List.ne_nil_of_mem (a := st) (List.mem_filterMap.mpr ⟨job, ?_, ?_⟩)
    · exact List.mem_filterMap.mpr ⟨_, hmem, rfl⟩
    · exact (jobStatusFromDict_eq_ok.mp hst).2
  rw [parseInternalJobs, except_bind_eq_ok]
  constructor
  · rintro ⟨items, hitems', hrest⟩
    obtain rfl := Except.ok.inj (hitems.symm.trans hitems')
    obtain ⟨sts, hsts, -⟩ := except_bind_eq_ok.mp hrest
    exact (parseItems_eq_ok.mp hsts).1
  · intro hall
    refine ⟨_, hitems, except_bind_eq_ok.mpr ⟨_, parseItems_eq_ok.mpr ⟨hall, rfl⟩, ?_⟩⟩
    rw [if_neg fun h => hparsed h.2]
    rfl

end

/-- An interpreter in a zone nine hours ahead of UTC, with ASCII blanks, letters and decimal digits,
and superscripts. -/
def seoul : Python where
  isSpace c := c = ' ' || c = '\t' || c = '\n' || c = '\r'
  isDigit c := c.isDigit || c = '¹' || c = '²' || c = '³'
  decimal? := digitIn 0 9
  lower := List.map Char.toLower
  upper := List.map Char.toUpper
  maxStrDigits := some 4300
  utcOffset _ := 9 * 3600 * 1000000

/-- A row of a running job. -/
def runningRow (id startTime : String) : Row :=
  ((∅ : Row).set "dataId" (.str id)).set "stat" (.str "run") |>.set "startTime" (.str startTime)

/-- A time nobody can read, and an id: the one leaves its row without a start, the other drops
it. -/
theorem parse_eq_iff_mixed :
    let items := [Item.row (runningRow "12[3].c1" "2026:08:08T12:00:01Z")] ++
      .row (runningRow "13" "yesterday") :: [.row (runningRow "job" "-")]
    (parseInternalJobs seoul (.list items) 0 none).toOption.map (List.map fun st =>
        (st.jobId, st.arrayIndex, st.startTime)) =
        some [(12, some 3, some 1786222801000000), (13, none, none)] ∧
      ∀ job ∈ items.filterMap Item.row?, RowReadable seoul job := by
  intro items
  refine ⟨by decide +kernel, ?_⟩
  have hsome : ∃ job st, Item.row job ∈ [Item.row (runningRow "12[3].c1" "2026:08:08T12:00:01Z")] ++
      [.row (runningRow "job" "-")] ∧ jobStatusFromDict seoul job 0 = .ok (some st) :=
    ⟨_, _, List.mem_cons_self, by rfl⟩
  have hitems : (Payload.list items).items = .ok ([Item.row (runningRow "12[3].c1"
      "2026:08:08T12:00:01Z")] ++ .row (runningRow "13" "yesterday") ::
      [.row (runningRow "job" "-")]) := rfl
  exact (parse_eq_iff hitems hsome none).mp (by decide +kernel)

/-- The first day of the calendar in a zone ahead of UTC takes the whole response down. -/
theorem not_parse_isolated : ¬ ∀ (py : Python) (payload : Payload) (front back : List Item)
    (extra : Row) (now : Time), payload.items = .ok (front ++ .row extra :: back) →
    (∃ job st, .row job ∈ front ++ back ∧ jobStatusFromDict py job now = .ok (some st)) →
    parseInternalJobs py payload now none
      = .ok (ownParses py now (front ++ .row extra :: back)) := by
  intro h
  have heq := h seoul
    (.list [.row (runningRow "12" "-"), .row (runningRow "13" "0001-01-01T00:00:00+09:00")])
    [.row (runningRow "12" "-")] [] (runningRow "13" "0001-01-01T00:00:00+09:00") 0 rfl
    ⟨_, { jobId := 12, arrayIndex := none, state := .run, exitCode := none }, List.mem_cons_self,
      by decide +kernel⟩
  exact absurd heq (by decide +kernel)

end Lsfmgr.Status
