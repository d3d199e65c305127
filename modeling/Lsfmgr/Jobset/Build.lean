import Mathlib
import Lsfmgr.Machinery.Shlex
import Lsfmgr.Jobset.Edit

/-!
# Jobset/Build — from commands to records

`build_records` makes a record of every command, and stores the command as one line.  What is run
later is what that line is split into: it is the argv the command was given as, word for word.
-/

namespace Lsfmgr

open Machinery

namespace Jobset

/-! ## Command lines -/

/-- `shlex.split` -/
def shlexSplit (command : String) : Except Shlex.SplitError (List String) :=
  (Shlex.split command.toList).map (List.map String.ofList)

/-- `shlex.join` -/
def shlexJoin (argv : List String) : String := String.ofList (Shlex.join (argv.map String.toList))

theorem shlexSplit_join (argv : List String) : shlexSplit (shlexJoin argv) = .ok argv := by
  have hwords : (argv.map String.toList).map String.ofList = argv := by
    rw [List.map_map]
    exact (List.map_congr_left fun s _ => String.ofList_toList).trans (List.map_id argv)
  rw [shlexSplit, shlexJoin, String.toList_ofList, Shlex.split_join]
  exact congrArg Except.ok hwords

/-- A command as it is given: a line, or its tokens. -/
inductive Command
  | line (text : String)
  | tokens (argv : List String)

def Command.argv : Command → Except Shlex.SplitError (List String)
  | line text => shlexSplit text
  | tokens argv => .ok argv

/-! ## Records -/

/-- Why no records are made; each is a `ValueError`. -/
inductive BuildError
  | bothDirs
  | noKeys
  | lengths
  | split (e : Shlex.SplitError)
  | emptyCommand
  | check (e : ManagerError)

def BuildError.message : BuildError → Option String
  | bothDirs => some "work_dir와 work_dirs는 동시에 지정할 수 없습니다(둘 중 하나)"
  | noKeys => some "job_keys는 필수입니다 — 각 job의 키를 앱이 정해야 합니다 (commands와 같은 길이)"
  | lengths => some "job_keys/user_datas/work_dirs 길이가 commands와 다릅니다"
  | split .noClosingQuotation => some "No closing quotation"
  | split .noEscapedCharacter => some "No escaped character"
  | emptyCommand => some "빈 커맨드는 job으로 만들 수 없습니다"
  | check _ => none

/-- What goes with the commands of a jobset. -/
structure Options where
  jobKeys : Option (List String) := none
  userDatas : Option (List (Option String)) := none
  workDir : Option String := none
  workDirs : Option (List (Option String)) := none

/-- The user data and the working directory of each of `n` jobs. -/
def Options.datas (o : Options) (n : ℕ) : List (Option String) :=
  o.userDatas.getD (List.replicate n none)

def Options.dirs (o : Options) (n : ℕ) : List (Option String) :=
  o.workDirs.getD (List.replicate n o.workDir)

/-- The record of one command. -/
def newRecord (jsid : String) (generation : ℕ) (argv : List String) (key : String)
    (data cwd : Option String) : JobRecord where
  jobsetId := jsid
  jobKey := key
  command := shlexJoin argv
  userData := data
  submitCwd := cwd
  generation := generation

/-- The body of the loop of `build_records`. -/
def buildRecord (jsid : String) (generation : ℕ) (item : Command) (key : String)
    (data cwd : Option String) : Except BuildError JobRecord :=
  match item.argv with
  | .error e => .error (.split e)
  | .ok argv => if argv = [] then .error .emptyCommand
      else .ok (newRecord jsid generation argv key data cwd)

/-- The loop, over the four lists at once. -/
def buildLoop (jsid : String) : ℕ → List Command → List String → List (Option String) →
    List (Option String) → Except BuildError (List JobRecord)
  | generation, item :: items, key :: keys, data :: datas, cwd :: dirs =>
    match buildRecord jsid generation item key data cwd with
    | .error e => .error e
    | .ok rec =>
      match buildLoop jsid (generation + 1) items keys datas dirs with
      | .error e => .error e
      | .ok records => .ok (rec :: records)
  | _, _, _, _, _ => .ok []

/-- `build_records`; the generations from `nextGen` on are new. -/
def buildRecords (nextGen : ℕ) (jsid : String) (commands : List Command) (o : Options) :
    Except BuildError (List JobRecord) :=
  if commands = [] then .ok []
  else if o.workDir.isSome ∧ o.workDirs.isSome then .error .bothDirs
  else
    match o.jobKeys with
    | none => .error .noKeys
    | some keys =>
      let n := commands.length
      if keys.length ≠ n ∨ (o.datas n).length ≠ n ∨ (o.dirs n).length ≠ n then .error .lengths
      else
        match buildLoop jsid nextGen commands keys (o.datas n) (o.dirs n) with
        | .error e => .error e
        | .ok records =>
          match checkRecords jsid [] records with
          | .error e => .error (.check e)
          | .ok () => .ok records

/-! ## What is built -/

/-- Every check passes. -/
structure Buildable (commands : List Command) (o : Options) (keys : List String) : Prop where
  oneDir : ¬ (o.workDir.isSome ∧ o.workDirs.isSome)
  given : o.jobKeys = some keys
  keys_length : keys.length = commands.length
  datas_length : (o.datas commands.length).length = commands.length
  dirs_length : (o.dirs commands.length).length = commands.length
  runs : ∀ item ∈ commands, ∃ argv, item.argv = .ok argv ∧ argv ≠ []
  usable : ∀ key ∈ keys, isBlank key = false
  nodup : keys.Nodup

/-- A record that runs its command: it was never submitted, and its line is split into the argv of
the command. -/
structure Runs (jsid : String) (item : Command) (r : JobRecord) : Prop where
  jobset : r.jobsetId = jsid
  created : r.state = .created
  unsubmitted : r.jobId = none ∧ r.arrayIndex = none
  argv : ∃ argv, argv ≠ [] ∧ item.argv = .ok argv ∧ shlexSplit r.command = .ok argv

theorem newRecord_runs {jsid : String} {item : Command} {argv : List String}
    (hargv : item.argv = .ok argv)
    (hne : argv ≠ []) (generation : ℕ) (key : String) (data cwd : Option String) :
    Runs jsid item (newRecord jsid generation argv key data cwd) where
  jobset := rfl
  created := rfl
  unsubmitted := ⟨rfl, rfl⟩
  argv := ⟨argv, hne, hargv, shlexSplit_join argv⟩

theorem buildRecord_ok {jsid : String} {generation : ℕ} {item : Command} {key : String}
    {data cwd : Option String} {r : JobRecord}
    (h : buildRecord jsid generation item key data cwd = .ok r) :
    ∃ argv, item.argv = .ok argv ∧ argv ≠ [] ∧ r = newRecord jsid generation argv key data cwd := by
  rw [buildRecord] at h
  split at h
  case h_1 => cases h
  case h_2 argv hargv =>
    split_ifs at h with hne
    exact ⟨argv, hargv, hne, (Except.ok.inj h).symm⟩

/-- **The loop runs through** if and only if every command has an argv, and then the records run
them. -/
theorem buildLoop_ok {jsid : String} {generation : ℕ} {items : List Command} {keys : List String}
    {datas dirs : List (Option String)} {records : List JobRecord} (hk : keys.length = items.length)
    (hd : datas.length = items.length) (hw : dirs.length = items.length)
    (h : buildLoop jsid generation items keys datas dirs = .ok records) :
    (∀ item ∈ items, ∃ argv, item.argv = .ok argv ∧ argv ≠ []) ∧
    List.Forall₂ (Runs jsid) items records ∧
      records.map (·.jobKey) = keys ∧ records.map (·.userData) = datas ∧
      records.map (·.submitCwd) = dirs := by
  induction items generalizing generation keys datas dirs records with
  | nil =>
    obtain rfl := List.length_eq_zero_iff.mp hk
    obtain rfl := List.length_eq_zero_iff.mp hd
    obtain rfl := List.length_eq_zero_iff.mp hw
    obtain rfl := Except.ok.inj h
    simp
  | cons item items ih =>
    obtain ⟨key, keys, rfl⟩ := List.exists_cons_of_length_eq_add_one hk
    obtain ⟨data, datas, rfl⟩ := List.exists_cons_of_length_eq_add_one hd
    obtain ⟨cwd, dirs, rfl⟩ := List.exists_cons_of_length_eq_add_one hw
    simp only [List.length_cons, Nat.add_right_cancel_iff] at hk hd hw
    rw [buildLoop] at h
    split at h
    case h_1 => cases h
    case h_2 r hr =>
      split at h
      case h_1 => cases h
      case h_2 rest hrest =>
        obtain rfl := Except.ok.inj h
        obtain ⟨argv, hargv, hne, rfl⟩ := buildRecord_ok hr
        obtain ⟨hruns, hforall, hkeys, hdatas, hdirs⟩ := ih hk hd hw hrest
        refine ⟨List.forall_mem_cons.mpr ⟨⟨argv, hargv, hne⟩, hruns⟩,
          .cons (newRecord_runs hargv hne generation key data cwd) hforall, ?_, ?_, ?_⟩
        · rw [List.map_cons, hkeys]
          rfl
        · rw [List.map_cons, hdatas]
          rfl
        · rw [List.map_cons, hdirs]
          rfl

theorem buildLoop_total {items : List Command}
    (h : ∀ item ∈ items, ∃ argv, item.argv = .ok argv ∧ argv ≠ [])
    (jsid : String) (generation : ℕ) (keys : List String) (datas dirs : List (Option String)) :
    ∃ records, buildLoop jsid generation items keys datas dirs = .ok records := by
  induction items generalizing generation keys datas dirs with
  | nil => exact ⟨[], rfl⟩
  | cons item items ih =>
    obtain ⟨⟨argv, hargv, hne⟩, hrest⟩ := List.forall_mem_cons.mp h
    rcases keys with - | ⟨key, keys⟩
    · exact ⟨[], rfl⟩
    rcases datas with - | ⟨data, datas⟩
    · exact ⟨[], rfl⟩
    rcases dirs with - | ⟨cwd, dirs⟩
    · exact ⟨[], rfl⟩
    obtain ⟨records, hrecords⟩ := ih hrest (generation + 1) keys datas dirs
    refine ⟨newRecord jsid generation argv key data cwd :: records, ?_⟩
    have hone : buildRecord jsid generation item key data cwd =
        .ok (newRecord jsid generation argv key data cwd) := by
      simp only [buildRecord, hargv, if_neg hne]
    simp only [buildLoop, hone, hrecords]

theorem checkRecords_of {js : String} {seen : List String} {records : List JobRecord}
    (hown : ∀ r ∈ records, r.jobsetId = js) (husable : ∀ r ∈ records, isBlank r.jobKey = false)
    (hnodup : (records.map (·.jobKey)).Nodup) (hseen : ∀ r ∈ records, r.jobKey ∉ seen) :
    checkRecords js seen records = .ok () := by
  induction records generalizing seen with
  | nil => rfl
  | cons r records ih =>
    rw [List.forall_mem_cons] at hown husable hseen
    rw [List.map_cons, List.nodup_cons] at hnodup
    rw [checkRecords, if_neg (by simpa using hown.1), if_neg (by simp [husable.1]), if_neg hseen.1]
    refine ih hown.2 husable.2 hnodup.2 fun x hx => ?_
    rw [List.mem_cons, not_or]
    exact ⟨fun heq => hnodup.1 (heq ▸ List.mem_map_of_mem hx), hseen.2 x hx⟩

theorem buildRecords_ok {nextGen : ℕ} {jsid : String} {commands : List Command} {o : Options}
    {records : List JobRecord} (hne : commands ≠ [])
    (h : buildRecords nextGen jsid commands o = .ok records) :
    ∃ keys, ¬ (o.workDir.isSome ∧ o.workDirs.isSome) ∧ o.jobKeys = some keys ∧
      (keys.length = commands.length ∧ (o.datas commands.length).length = commands.length ∧
        (o.dirs commands.length).length = commands.length) ∧
      buildLoop jsid nextGen commands keys (o.datas commands.length)
        (o.dirs commands.length) = .ok records ∧
      checkRecords jsid [] records = .ok () := by
  rw [buildRecords, if_neg hne] at h
  split at h
  case isTrue => cases h
  case isFalse hdirs =>
    split at h
    case h_1 => cases h
    case h_2 keys hkeys =>
      dsimp only at h
      split at h
      case isTrue => cases h
      case isFalse hlen =>
        rw [not_or, not_or, not_not, not_not, not_not] at hlen
        split at h
        case h_1 => cases h
        case h_2 records' hloop =>
          split at h
          case h_1 => cases h
          case h_2 hcheck =>
            obtain rfl := Except.ok.inj h
            exact ⟨keys, hdirs, hkeys, hlen, hloop, hcheck⟩

theorem jobset_of_runs {jsid : String} {items : List Command} {records : List JobRecord}
    (h : List.Forall₂ (Runs jsid) items records) : ∀ r ∈ records, r.jobsetId = jsid := by
  induction h with
  | nil => simp
  | cons hr _ ih => exact List.forall_mem_cons.mpr ⟨hr.jobset, ih⟩

theorem buildRecords_total {jsid : String} {commands : List Command} {o : Options}
    {keys : List String}
    (h : Buildable commands o keys) (nextGen : ℕ) :
    ∃ records, buildRecords nextGen jsid commands o = .ok records := by
  by_cases hne : commands = []
  · exact ⟨[], by rw [buildRecords, if_pos hne]⟩
  obtain ⟨records, hloop⟩ := buildLoop_total h.runs jsid nextGen keys (o.datas commands.length)
    (o.dirs commands.length)
  obtain ⟨-, hruns, hkeys, -, -⟩ := buildLoop_ok h.keys_length h.datas_length h.dirs_length hloop
  have hcheck : checkRecords jsid [] records = .ok () :=
    checkRecords_of (jobset_of_runs hruns) (fun r hr => h.usable _ (hkeys ▸ List.mem_map_of_mem hr))
      (hkeys ▸ h.nodup) fun r _ => List.not_mem_nil
  have hlen :
    ¬ (keys.length ≠ commands.length ∨ (o.datas commands.length).length ≠ commands.length ∨
      (o.dirs commands.length).length ≠ commands.length) := by
    rw [not_or, not_or, not_not, not_not, not_not]
    exact ⟨h.keys_length, h.datas_length, h.dirs_length⟩
  refine ⟨records, ?_⟩
  rw [buildRecords, if_neg hne, if_neg h.oneDir]
  simp only [h.given, if_neg hlen, hloop, hcheck]

/-- **A record runs the command it was made for.**  Records are made if and only if every check
passes; then there is one for each command, with its key, its data and its directory, in the order
given, and its line is split into the argv of the command, whatever blanks, quotes and backslashes
are in it. -/
theorem buildRecords_runs (nextGen : ℕ) (jsid : String) {commands : List Command}
    (hne : commands ≠ [])
    (o : Options) :
    ((∃ records, buildRecords nextGen jsid commands o = .ok records) ↔
      ∃ keys, Buildable commands o keys) ∧
      ∀ records, buildRecords nextGen jsid commands o = .ok records →
        List.Forall₂ (Runs jsid) commands records ∧ some (records.map (·.jobKey)) = o.jobKeys ∧
          records.map (·.userData) = o.datas commands.length ∧
          records.map (·.submitCwd) = o.dirs commands.length := by
  refine ⟨⟨?_, ?_⟩, fun records h => ?_⟩
  · rintro ⟨records, h⟩
    obtain ⟨keys, hdirs, hkeys, ⟨hk, hd, hw⟩, hloop, hcheck⟩ := buildRecords_ok hne h
    obtain ⟨hargv, -, hmap, -, -⟩ := buildLoop_ok hk hd hw hloop
    refine ⟨keys, hdirs, hkeys, hk, hd, hw, hargv, fun key hkey => ?_, hmap ▸
      (checkRecords_ok hcheck).2.1⟩
    rw [← hmap] at hkey
    obtain ⟨r, hr, rfl⟩ := List.mem_map.mp hkey
    exact checkRecords_usable hcheck r hr
  · rintro ⟨keys, h⟩
    exact buildRecords_total h nextGen
  · obtain ⟨keys, -, hkeys, ⟨hk, hd, hw⟩, hloop, -⟩ := buildRecords_ok hne h
    obtain ⟨-, hruns, hmap, hdatas, hdirs⟩ := buildLoop_ok hk hd hw hloop
    exact ⟨hruns, by rw [hmap, hkeys], hdatas, hdirs⟩

/-- A line with a quoted blank, and tokens with a quotation mark and with nothing in them. -/
def quotedCommands : List Command := [.line "sub 'a b'", .tokens ["sub", "it's", ""]]

theorem buildRecords_runs_quoted : ∃ records,
    buildRecords 0 "js" quotedCommands { jobKeys := some ["a", "b"] } = .ok records ∧
      List.Forall₂ (Runs "js") quotedCommands records := by
  have hline : shlexSplit "sub 'a b'" = .ok ["sub", "a b"] := by decide +kernel
  have hargv : ∀ item ∈ quotedCommands, ∃ argv, item.argv = .ok argv ∧ argv ≠ [] := by
    simp [quotedCommands, Command.argv, hline]
  obtain ⟨records, h⟩ := (buildRecords_runs 0 "js" (List.cons_ne_nil _ _)
    { jobKeys := some ["a", "b"] }).1.mpr
    ⟨["a", "b"], by decide, rfl, rfl, rfl, rfl, hargv, by decide, by decide⟩
  exact ⟨records, h, ((buildRecords_runs 0 "js" (List.cons_ne_nil _ _) _).2 records h).1⟩

end Jobset

end Lsfmgr
