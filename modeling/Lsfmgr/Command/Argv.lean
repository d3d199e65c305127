import Mathlib
import Lsfmgr.Command.Chunk

/-!
# Command/Argv — the command lines of `bjobs` and `bkill`, and the lengths reserved for them

A chunk is cut to what is left of `arg_max` after a reserved length, computed apart from the command
line the chunk ends up in.
-/

namespace Lsfmgr.Command

/-- `CmdPath`: a program, or a program with its first arguments. -/
inductive CmdPath
  | program (path : Text)
  | tokens (tokens : List Text)

/-- `cmd_tokens` -/
def cmdTokens : CmdPath → List Text
  | .program path => [path]
  | .tokens tokens => tokens

/-- `validate_cmd_path`: no empty token, and at least one. -/
def CmdPath.Valid (path : CmdPath) : Prop := cmdTokens path ≠ [] ∧ ∀ t ∈ cmdTokens path, t ≠ []

instance (path : CmdPath) : Decidable path.Valid := inferInstanceAs (Decidable (_ ∧ _))

/-- The parts of the configuration that commands are built from, within `NUMERIC_RANGES`. -/
structure Config where
  bjobsPath : CmdPath := .program "bjobs".toList
  bkillPath : CmdPath := .program "bkill".toList
  chunkSize : ℕ := 500
  argMax : ℕ := 131072
  killChunkSize : ℕ := 16
  collectClusters : Bool := false
  /-- A `job_status_fetcher` is configured: it answers the queries, and `bjobs` is never run. -/
  jobStatusFetcher : Bool := false
  bjobsPath_valid : bjobsPath.Valid := by decide
  bkillPath_valid : bkillPath.Valid := by decide
  chunkSize_range : 1 ≤ chunkSize ∧ chunkSize ≤ 5000 := by decide
  argMax_range : 4096 ≤ argMax := by decide
  killChunkSize_range : 1 ≤ killChunkSize ∧ killChunkSize ≤ 5000 := by decide

/-! ## The formats -/

/-- `_DELIM` -/
def delim : String := "delimiter=';'"

/-- `_CORE_FIELDS` -/
def coreFields : String := "jobid stat exit_code"

/-- `_FULL_FIELDS` -/
def fullFields : String := coreFields ++ " run_time start_time finish_time"

def bjobsCoreFmt : String := s!"{coreFields} {delim}"
def bjobsFullFmt : String := s!"{fullFields} {delim}"
def bjobsFullMcFmt : String := s!"{fullFields} source_cluster forward_cluster {delim}"

/-- `_bjobs_formats`: the richest first. -/
def Config.bjobsFormats (cfg : Config) : List Text :=
  (if cfg.collectClusters then [bjobsFullMcFmt, bjobsFullFmt, bjobsCoreFmt]
    else [bjobsFullFmt, bjobsCoreFmt]).map String.toList

/-! ## Command lines -/

/-- What `_bjobs` puts between the program and the ids. -/
def bjobsOptions (fmt : Text) : List Text := ["-noheader".toList, "-o".toList, fmt]

/-- The command line of `_bjobs`. -/
def Config.bjobsArgv (cfg : Config) (fmt : Text) (selector : List Text) : List Text :=
  cmdTokens cfg.bjobsPath ++ bjobsOptions fmt ++ selector

/-- `_bkill_argv` -/
def Config.bkillArgv (cfg : Config) (chunk : List Text) : List Text :=
  cmdTokens cfg.bkillPath ++ chunk

/-- `_prog_len` -/
def progLen (path : CmdPath) : ℕ := lineLength (cmdTokens path)

/-- `_bjobs_base_len` -/
def Config.bjobsBaseLen (cfg : Config) : ℕ := progLen cfg.bjobsPath + 40

/-- `_bkill_base_len` -/
def Config.bkillBaseLen (cfg : Config) : ℕ := progLen cfg.bkillPath + 10

/-- The chunks of `bkill_targets_confirm`. -/
def Config.bkillChunks (cfg : Config) (targets : List Text) : Chunking :=
  chunkArgs cfg.killChunkSize cfg.argMax cfg.bkillBaseLen targets

/-- `str` of a job id -/
def idText (id : ℕ) : Text := Nat.toDigits 10 id

/-- `int` of what `str` made -/
def textId (text : Text) : ℕ := Nat.ofDigitChars 10 text 0

@[simp] theorem textId_idText (id : ℕ) : textId (idText id) = id := Nat.ofDigitChars_ten_toDigits

theorem lineLength_bjobsArgv (cfg : Config) (fmt : Text) (selector : List Text) :
    lineLength (cfg.bjobsArgv fmt selector) =
      progLen cfg.bjobsPath + lineLength (bjobsOptions fmt) + lineLength selector := by
  simp [Config.bjobsArgv, progLen, Nat.add_assoc]

theorem lineLength_bkillArgv (cfg : Config) (chunk : List Text) :
    lineLength (cfg.bkillArgv chunk) = progLen cfg.bkillPath + lineLength chunk := by
  simp [Config.bkillArgv, progLen]

theorem bjobsFormats_ne_nil (cfg : Config) : cfg.bjobsFormats ≠ [] := by
  rw [Config.bjobsFormats]
  split <;> simp

/-- **The options are longer than what is reserved for them**, in every format. -/
theorem reserved_lt_options (cfg : Config) :
    ∀ fmt ∈ cfg.bjobsFormats, 40 < lineLength (bjobsOptions fmt) := by
  intro fmt hmem
  rw [Config.bjobsFormats] at hmem
  have hall : ∀ fmt ∈ [bjobsFullMcFmt, bjobsFullFmt, bjobsCoreFmt].map String.toList,
      40 < lineLength (bjobsOptions fmt) := by decide +kernel
  refine hall fmt ?_
  split at hmem
  · exact hmem
  · exact List.mem_cons_of_mem _ hmem

end Lsfmgr.Command
