import Mathlib
import Lsfmgr.Command.Isolation

/-!
# Command/Limit — when the command lines are within `arg_max`

A chunk of ids is cut to leave the program and 40 characters.  The options take 48 characters in the
shortest format and more in the others, so a chunk can be too long by what is missing.  All are
within the limit exactly when the ids go on lines that are full for the 40 characters and still have
room for the options (`argvsFit_iff`), which they do when `chunk_size` of them are short enough
(`LeavesRoom.of_short`).  `bkill` has no options and is always within the limit.
-/

namespace Lsfmgr.Command

open Machinery

variable {site : Site} {level : ℕ}

/-- What the options of a format take on the command line. -/
def Site.optionsLen (site : Site) (fmtIdx : ℕ) : ℕ := lineLength (bjobsOptions (site.format fmtIdx))

/-- **The ids go on lines with room for the options**: a line takes the ids it has room for beside
the program and 40 characters, `chunk_size` at the most, and the options still fit. -/
inductive LeavesRoom (site : Site) (level : ℕ) : List Text → Prop
  | nil : LeavesRoom site level []
  | line {line rest : List Text} : line ≠ [] → line.length ≤ site.cfg.chunkSize →
      progLen site.cfg.bjobsPath + site.optionsLen level + lineLength line ≤ site.cfg.argMax →
      (∀ next ∈ rest.head?, line.length = site.cfg.chunkSize ∨
        site.cfg.argMax < progLen site.cfg.bjobsPath + 40 + lineLength line + room next) →
      LeavesRoom site level rest → LeavesRoom site level (line ++ rest)

/-- The poorer formats are shorter. -/
theorem pairwise_bjobsFormats (cfg : Config) : cfg.bjobsFormats.Pairwise fun fmt fmt' =>
    lineLength (bjobsOptions fmt') ≤ lineLength (bjobsOptions fmt) := by
  rw [Config.bjobsFormats]
  split <;> decide +kernel

theorem optionsLen_anti (site : Site) {i j : ℕ} (hij : i ≤ j) (hj : j < site.formats) :
    site.optionsLen j ≤ site.optionsLen i := by
  rcases hij.eq_or_lt with rfl | hlt
  · exact le_rfl
  · have hi : i < site.formats := hij.trans_lt hj
    simp only [Site.optionsLen, Site.format, List.getD_eq_getElem _ _ hi,
      List.getD_eq_getElem _ _ hj]
    exact List.pairwise_iff_getElem.mp (pairwise_bjobsFormats site.cfg) i j hi hj hlt

/-- 40 characters are fewer than any format needs. -/
theorem reserved_lt_optionsLen (hl : level < site.formats) : 40 < site.optionsLen level := by
  refine reserved_lt_options site.cfg _ ?_
  rw [Site.format, List.getD_eq_getElem _ _ hl]
  exact List.getElem_mem hl

/-! ## What is handed to the runner -/

@[simp] theorem Call.handed_collect (c : Call) (chunk : List Text) (rest : List (List Text))
    (last : Attempt) (result : Except Failure (List JobStatus)) :
    (c.collect chunk rest last result).handed = c.handed := by
  cases result with
  | ok rows => rfl
  | error f =>
    cases f with
    | other => rfl
    | command e =>
      simp only [Call.collect]
      split_ifs <;> rfl

/-- The command lines a call has run are those of its chunks, in formats from `level` on. -/
structure Call.Handed (site : Site) (level : ℕ) (c : Call) : Prop where
  argv : ∀ argv ∈ c.handed, site.cfg.jobStatusFetcher = false ∧
    (site.chunks c.jobIds).raised = none ∧
    ∃ fmtIdx chunk, level ≤ fmtIdx ∧ fmtIdx < site.formats ∧
      chunk ∈ (site.chunks c.jobIds).chunks ∧ argv = site.cfg.bjobsArgv (site.format fmtIdx) chunk
  selected : ∀ usedIdx runs, c.phase = .bjobs (.selected usedIdx runs) → level ≤ usedIdx

namespace Call.Handed

theorem start (jobIds : List ℕ) : (Call.start site jobIds).Handed site level := by
  refine ⟨fun argv hargv => ?_, fun u r hp => absurd hp (Call.start_phase site jobIds _)⟩
  rw [Call.start] at hargv
  split at hargv
  · cases hargv
  · dsimp only at hargv
    split at hargv <;> cases hargv

variable {c : Call} {g : Shared}

/-- What a step of `_bjobs` hands over, and the index it has then read. -/
theorem step (h : c.Handed site level) (hinv : c.Inv site) {errors : List (ℕ × Failure)}
    (hok : ∀ stage, c.phase = .bjobs stage → stage.Ok site errors g.fmtIdx)
    (hle : level ≤ g.fmtIdx) (hlt : g.fmtIdx < site.formats) {m : CallMove} {out : ℕ × Call}
    (hstep : c.step site g m = some out) : out.2.Handed site level := by
  rcases Call.step_cases hstep with ⟨-, hp, -, rfl⟩ | ⟨chunk, rest, -, hp, -, rfl⟩ |
    ⟨m', stage, chunk, rest, out', -, hp, ht, hst, rfl⟩ | ⟨last, runs, chunk, rest, -, hp, -, rfl⟩
  · exact ⟨h.argv, by simp⟩
  · exact ⟨h.argv, by simp⟩
  · have hl : c.phase.looping = true := by rw [hp]; rfl
    obtain ⟨hf, hraised, hchunks⟩ := hinv.chunks_of_looping hl
    have hmem : chunk ∈ (site.chunks c.jobIds).chunks := by
      rw [hchunks, ht]
      simp
    rcases Stage.step_cases hst with ⟨r, rfl, rfl, rfl⟩ | ⟨u, r, rfl, rfl, hdown, rfl⟩ |
      ⟨u, r, rfl, rfl, hdown, rfl⟩ | ⟨u, r, a, rfl, rfl, rfl⟩ | ⟨u, r, rfl, rfl, rfl⟩
    · refine ⟨fun argv hargv => h.argv argv (by simpa [Stage.handing] using hargv),
        fun u r' hp' => ?_⟩
      simp only [Phase.bjobs.injEq, Stage.selected.injEq] at hp'
      exact hp'.1 ▸ hle
    · refine ⟨fun argv hargv => ?_, by simp⟩
      rcases List.mem_append.mp hargv with hold | hnew
      · exact h.argv argv hold
      · simp only [Stage.handing, hdown, Bool.false_eq_true, if_false, List.mem_singleton] at hnew
        have hu := (hok _ hp).2
        exact ⟨hf, hraised, u, chunk, h.selected u r hp, hu.trans_lt hlt, hmem, hnew⟩
    · refine ⟨fun argv hargv => h.argv argv (by simpa [Stage.handing, hdown] using hargv), ?_⟩
      rcases Stage.afterError_cases site chunk ⟨u, true, none⟩ r with
        ⟨heq, -⟩ | ⟨heq, -⟩ <;> simp [heq]
    · refine ⟨fun argv hargv => h.argv argv (by simpa [Stage.handing] using hargv), ?_⟩
      rcases Stage.afterError_cases site chunk ⟨u, g.down, some a⟩ r with
        ⟨heq, -⟩ | ⟨heq, -⟩ <;> simp [heq]
    · exact ⟨fun argv hargv => h.argv argv (by simpa [Stage.handing] using hargv), by simp⟩
  · simp only [Call.collect]
    split
    · exact ⟨h.argv, by simp⟩
    · split_ifs <;> exact ⟨h.argv, by simp⟩
    · exact ⟨h.argv, by simp⟩

theorem of_reachable (hl : level < site.formats) {s : State}
    (h : (queries site level).Reachable s) :
    level ≤ s.shared.fmtIdx ∧ ∀ c ∈ s.calls, c.Handed site level := by
  refine h.invariant (I := fun s => level ≤ s.shared.fmtIdx ∧ ∀ c ∈ s.calls, c.Handed site level)
    (fun s hs => ?_) fun s a s' hr hinv _ hstep => ?_
  · rw [show s = _ from hs]
    exact ⟨le_rfl, by simp⟩
  · have hstate := State.Inv.of_reachable hl hr
    have hcalls := Call.Inv.of_reachable hr
    refine ⟨hinv.1.trans (hstate.le_of_step hstep), ?_⟩
    rcases State.step_cases hstep with ⟨jobIds, rfl, rfl⟩ | ⟨i, m, c, out, rfl, hc, hout, rfl⟩ |
      ⟨rfl, rfl⟩
    · intro c hc
      rcases List.mem_append.mp hc with hc | hc
      · exact hinv.2 c hc
      · obtain rfl := List.mem_singleton.mp hc
        exact start jobIds
    · intro c' hc'
      have hmem := List.mem_of_getElem? hc
      rcases mem_replaceAt hc' with hold | hnew
      · exact hinv.2 c' hold
      · obtain rfl := List.mem_singleton.mp hnew
        exact (hinv.2 c hmem).step (hcalls c hmem) (hstate.ok c hmem) hinv.1 hstate.lt hout
    · exact hinv.2

end Call.Handed

/-- A call that is alone, and whose chunks are all answered. -/
theorem run_chunk {s : State} {c : Call} {chunk : List Text} {rest : List (List Text)}
    (hg : s.shared = ⟨level, false⟩) (hs : s.calls = [c]) (hp : c.phase = .loop)
    (ht : c.todo = chunk :: rest) (hr : (queries site level).Reachable s) :
    ∃ s' c', (queries site level).Reachable s' ∧ s'.shared = ⟨level, false⟩ ∧ s'.calls = [c'] ∧
      c'.phase = .loop ∧ c'.todo = rest ∧ c'.jobIds = c.jobIds ∧
      c'.handed = c.handed ++ [site.cfg.bjobsArgv (site.format level) chunk] := by
  obtain ⟨g, calls, errors⟩ := s
  obtain ⟨jobIds, todo, out, failed, consecutive, phase, asked, handed⟩ := c
  subst hg hs hp ht
  have hrun (acts : List Act) (s' : State) (h : (queries site level).run _ acts = some s') :=
    System.reachable_of_run hr h
  exact ⟨_, _, hrun ([CallMove.next, .bjobs .select, .bjobs .run,
    .bjobs (.answer (.result 0 [] [])), .collect].map (.move 0)) _ rfl, rfl, rfl, rfl, rfl, rfl,
    by simp [Stage.handing]⟩

/-- **Every chunk is handed over in some run.** -/
theorem exists_handed (site : Site) (level : ℕ) (jobIds : List ℕ)
    (hf : site.cfg.jobStatusFetcher = false)
    (hraised : (site.chunks jobIds).raised = none) :
    ∃ s c, (queries site level).Reachable s ∧ c ∈ s.calls ∧ c.jobIds = jobIds ∧
      ∀ chunk ∈ (site.chunks jobIds).chunks,
        site.cfg.bjobsArgv (site.format level) chunk ∈ c.handed := by
  have main : ∀ (todo : List (List Text)) (s : State) (c : Call), s.shared = ⟨level, false⟩ →
      s.calls = [c] → c.phase = .loop → c.todo = todo → (queries site level).Reachable s →
      ∃ s' c', (queries site level).Reachable s' ∧ s'.calls = [c'] ∧ c'.jobIds = c.jobIds ∧
        c'.handed = c.handed ++ todo.map (site.cfg.bjobsArgv (site.format level)) := by
    intro todo
    induction todo with
    | nil => exact fun s c _ hs _ _ hr => ⟨s, c, hr, hs, rfl, by simp⟩
    | cons chunk rest ih =>
      intro s c hg hs hp ht hr
      obtain ⟨s₁, c₁, hr₁, hg₁, hs₁, hp₁, ht₁, hids₁, hh₁⟩ := run_chunk hg hs hp ht hr
      obtain ⟨s₂, c₂, hr₂, hs₂, hids₂, hh₂⟩ := ih s₁ c₁ hg₁ hs₁ hp₁ ht₁ hr₁
      exact ⟨s₂, c₂, hr₂, hs₂, hids₂.trans hids₁, by simp [hh₂, hh₁]⟩
  have hstart : Call.start site jobIds
      = { jobIds, todo := (site.chunks jobIds).chunks, phase := .loop } := by
    rw [Call.start, if_neg (by simp [hf])]
    dsimp only
    split
    · rename_i message hsome
      cases hraised.symm.trans hsome
    · rfl
  have hr : (queries site level).Reachable
      { shared := ⟨level, false⟩, calls := [Call.start site jobIds] } :=
    .step (a := .call jobIds) (.init rfl) trivial rfl
  obtain ⟨s, c, hr, hs, hids, hh⟩ := main (site.chunks jobIds).chunks _ _ rfl rfl
    (by rw [hstart]) (by rw [hstart]) hr
  refine ⟨s, c, hr, by simp [hs], by rw [hids, hstart], fun chunk hchunk => ?_⟩
  rw [hh]
  exact List.mem_append_right _ (List.mem_map_of_mem hchunk)

/-! ## The limit -/

/-- Every command line of the call, in any run, and of the kill is within the limit; what raises
before it runs anything has none. -/
def ArgvsFit (site : Site) (level : ℕ) (jobIds : List ℕ) (targets : List Text) : Prop :=
  (∀ s, (queries site level).Reachable s → ∀ c ∈ s.calls, c.jobIds = jobIds →
    ∀ argv ∈ c.handed, (argv.map fun token => token.length + 1).sum ≤ site.cfg.argMax) ∧
  ((site.cfg.bkillChunks targets).raised = none → ∀ chunk ∈ (site.cfg.bkillChunks targets).chunks,
    ((site.cfg.bkillArgv chunk).map fun token => token.length + 1).sum ≤ site.cfg.argMax)

/-- What the configuration and the ids must satisfy: another source is asked, or some id is too long
for any line, or the ids go on lines with room for the options. -/
def RoomForOptions (site : Site) (level : ℕ) (jobIds : List ℕ) : Prop :=
  site.cfg.jobStatusFetcher = true ∨
    (∃ id ∈ jobIds, site.cfg.argMax < progLen site.cfg.bjobsPath + 40 + room (idText id)) ∨
    LeavesRoom site level (jobIds.map idText)

/-- The command line of a kill is within the limit: 10 characters are reserved and none are used. -/
theorem lineLength_bkillArgv_le (cfg : Config) {targets chunk : List Text}
    (h : chunk ∈ (cfg.bkillChunks targets).chunks) :
    lineLength (cfg.bkillArgv chunk) ≤ cfg.argMax := by
  have hle := ((packing_chunkArgs cfg.killChunkSize_range.1 targets).within chunk h).2
  rw [Config.bkillBaseLen] at hle
  rw [lineLength_bkillArgv]
  omega

/-- The real length is the stricter bound. -/
theorem Within.of_options (hl : level < site.formats) {line : List Text}
    (h : Within site.cfg.chunkSize site.cfg.argMax
      (progLen site.cfg.bjobsPath + site.optionsLen level) line) :
    Within site.cfg.chunkSize site.cfg.argMax site.cfg.bjobsBaseLen line := by
  have hlt := reserved_lt_optionsLen hl
  have hle := h.2
  refine ⟨h.1, ?_⟩
  rw [Config.bjobsBaseLen]
  omega

/-- Nothing more goes on a line that has `chunk_size` ids, or no room. -/
theorem not_within_append_iff {line : List Text} {next : Text}
    (hline : line.length ≤ site.cfg.chunkSize) :
    ¬ Within site.cfg.chunkSize site.cfg.argMax site.cfg.bjobsBaseLen (line ++ [next]) ↔
      line.length = site.cfg.chunkSize ∨
        site.cfg.argMax < progLen site.cfg.bjobsPath + 40 + lineLength line + room next := by
  simp only [Within, Config.bjobsBaseLen, List.length_append, List.length_singleton,
    lineLength_append, lineLength_cons, lineLength_nil]
  omega

/-- The lines are a packing of the ids, whichever length is reserved. -/
theorem LeavesRoom.packing (hl : level < site.formats) {items : List Text}
    (h : LeavesRoom site level items) : ∃ lines : List (List Text), lines.flatten = items ∧
      Packing (Within site.cfg.chunkSize site.cfg.argMax site.cfg.bjobsBaseLen) lines ∧
      ∀ line ∈ lines, progLen site.cfg.bjobsPath + site.optionsLen level + lineLength line
        ≤ site.cfg.argMax := by
  induction h with
  | nil => exact ⟨[], rfl, .nil, by simp⟩
  | @line line rest hne hsize hroom hfull _ ih =>
    obtain ⟨lines, rfl, hpack, hrest⟩ := ih
    refine ⟨line :: lines, rfl, .cons hne (Within.of_options hl ⟨hsize, hroom⟩) ?_ hpack,
      List.forall_mem_cons.mpr ⟨hroom, hrest⟩⟩
    intro d hd next hnext
    refine (not_within_append_iff hsize).mpr (hfull next ?_)
    -- the line after this one begins the rest
    cases lines with
    | nil => cases hd
    | cons e lines =>
      obtain rfl : e = d := by simpa using hd
      cases e with
      | nil => cases hnext
      | cons x e => simpa using hnext

/-- A packing with room for the options. -/
theorem leavesRoom_of_packing : ∀ {lines : List (List Text)},
    Packing (Within site.cfg.chunkSize site.cfg.argMax site.cfg.bjobsBaseLen) lines →
    (∀ line ∈ lines, progLen site.cfg.bjobsPath + site.optionsLen level + lineLength line
      ≤ site.cfg.argMax) → LeavesRoom site level lines.flatten
  | [], _, _ => .nil
  | line :: lines, hpack, hroom => by
      have hsize := (hpack.within line (by simp)).1
      refine .line (hpack.ne_nil line (by simp)) hsize (hroom line (by simp)) (fun next hnext => ?_)
        (leavesRoom_of_packing hpack.tail fun l hl => hroom l (List.mem_cons_of_mem _ hl))
      cases lines with
      | nil => cases hnext
      | cons e lines =>
        refine (not_within_append_iff hsize).mp
          ((List.isChain_cons.mp hpack.full).1 e (by simp) next ?_)
        cases e with
        | nil => exact absurd rfl (hpack.ne_nil [] (by simp))
        | cons x e => simpa using hnext

/-- It raises exactly if some id is too long for any line. -/
theorem raised_chunks_eq_none_iff {jobIds : List ℕ} : (site.chunks jobIds).raised = none ↔
    ¬ ∃ id ∈ jobIds, site.cfg.argMax < progLen site.cfg.bjobsPath + 40 + room (idText id) := by
  rw [Site.chunks, raised_chunkArgs_eq_none_iff]
  simp [Fits, Config.bjobsBaseLen]

theorem packing_chunks (site : Site) (jobIds : List ℕ) :
    Packing (Within site.cfg.chunkSize site.cfg.argMax site.cfg.bjobsBaseLen)
      (site.chunks jobIds).chunks :=
  packing_chunkArgs site.cfg.chunkSize_range.1 _

/-- **The chunks all leave room for the options exactly if the ids do.** -/
theorem leavesRoom_iff (hl : level < site.formats) {jobIds : List ℕ}
    (hraised : (site.chunks jobIds).raised = none) : LeavesRoom site level (jobIds.map idText) ↔
      ∀ chunk ∈ (site.chunks jobIds).chunks,
        progLen site.cfg.bjobsPath + site.optionsLen level +
            lineLength chunk ≤ site.cfg.argMax := by
  have hpack := packing_chunks site jobIds
  have hflat : (site.chunks jobIds).chunks.flatten = jobIds.map idText :=
    flatten_chunkArgs (raised_chunkArgs_eq_none_iff.mp hraised)
  constructor
  · intro h
    obtain ⟨lines, hlines, hpack', hroom⟩ := h.packing hl
    rwa [show (site.chunks jobIds).chunks = lines from
      Packing.unique (fun _ _ => Within.of_append) hpack hpack' (hflat.trans hlines.symm)]
  · intro hroom
    rw [← hflat]
    exact leavesRoom_of_packing hpack hroom

/-- They do if `chunk_size` of the longest fit. -/
theorem LeavesRoom.of_short (hl : level < site.formats) {jobIds : List ℕ} {w : ℕ}
    (hw : ∀ id ∈ jobIds, room (idText id) ≤ w)
    (hfit : progLen site.cfg.bjobsPath + site.optionsLen level + site.cfg.chunkSize * w
      ≤ site.cfg.argMax) : LeavesRoom site level (jobIds.map idText) := by
  have hlt := reserved_lt_optionsLen hl
  have hpack := packing_chunks site jobIds
  have hone : w ≤ site.cfg.chunkSize * w := Nat.le_mul_of_pos_left w site.cfg.chunkSize_range.1
  have hraised : (site.chunks jobIds).raised = none := by
    refine raised_chunks_eq_none_iff.mpr ?_
    rintro ⟨id, hid, hlong⟩
    have hroom := hw id hid
    omega
  refine (leavesRoom_iff hl hraised).mpr fun chunk hchunk => ?_
  have hflat : (site.chunks jobIds).chunks.flatten = jobIds.map idText :=
    flatten_chunkArgs (raised_chunkArgs_eq_none_iff.mp hraised)
  have hle : lineLength chunk ≤ chunk.length * w := by
    refine (List.sum_le_card_nsmul _ w ?_).trans_eq (by simp)
    simp only [List.mem_map, forall_exists_index, and_imp]
    rintro _ item hitem rfl
    have hmem : item ∈ jobIds.map idText := hflat ▸ List.mem_flatten.mpr ⟨chunk, hchunk, hitem⟩
    obtain ⟨id, hid, rfl⟩ := List.mem_map.mp hmem
    exact hw id hid
  have hsize : chunk.length * w ≤ site.cfg.chunkSize * w :=
    Nat.mul_le_mul_right w (hpack.within chunk hchunk).1
  omega

/-- **The command lines fit exactly if the ids leave room for the options.** -/
theorem argvsFit_iff (site : Site) {level : ℕ} (hl : level < site.formats) (jobIds : List ℕ)
    (targets : List Text) :
    ArgvsFit site level jobIds targets ↔ RoomForOptions site level jobIds := by
  constructor
  · rintro ⟨hfit, -⟩
    rw [RoomForOptions, or_iff_not_imp_left, or_iff_not_imp_left]
    intro hf hshort
    rw [Bool.not_eq_true] at hf
    have hraised := raised_chunks_eq_none_iff.mpr hshort
    obtain ⟨s, c, hr, hc, hids, hall⟩ := exists_handed site level jobIds hf hraised
    refine (leavesRoom_iff hl hraised).mpr fun chunk hchunk => ?_
    have hle := hfit s hr c hc hids _ (hall chunk hchunk)
    have hlen := lineLength_bjobsArgv site.cfg (site.format level) chunk
    rw [← Site.optionsLen] at hlen
    exact hlen ▸ hle
  · intro hcut
    refine ⟨fun s hr c hc hids argv hargv => ?_, fun _ chunk hchunk =>
      lineLength_bkillArgv_le site.cfg hchunk⟩
    subst hids
    obtain ⟨hf, hraised, fmtIdx, chunk, hle, hlt, hchunk, rfl⟩ :=
      ((Call.Handed.of_reachable hl hr).2 c hc).argv argv hargv
    rcases hcut with hyes | hlong | hroom
    · cases hf.symm.trans hyes
    · exact absurd hlong (raised_chunks_eq_none_iff.mp hraised)
    · have hfits := (leavesRoom_iff hl hraised).mp hroom chunk hchunk
      have hopt := optionsLen_anti site hle hlt
      have hlen := lineLength_bjobsArgv site.cfg (site.format fmtIdx) chunk
      rw [← Site.optionsLen] at hlen
      have htotal :
          lineLength (site.cfg.bjobsArgv (site.format fmtIdx) chunk) ≤ site.cfg.argMax := by
        omega
      exact htotal

/-- The default options, with room for 4096 characters. -/
def narrowSite : Site :=
  { plainSite with cfg := { plainSite.cfg with argMax := 4096, argMax_range := by decide } }

/-- One id leaves room enough. -/
theorem argvsFit_iff_one : (0 < narrowSite.formats ∧ RoomForOptions narrowSite 0 [7]) ∧
    ArgvsFit narrowSite 0 [7] ["7".toList] :=
  have hroom : RoomForOptions narrowSite 0 [7] :=
    .inr (.inr (.of_short (w := 2) (by decide) (by decide) (by decide +kernel)))
  ⟨⟨by decide, hroom⟩, (argvsFit_iff narrowSite (by decide) [7] ["7".toList]).mpr hroom⟩

/-- 450 ids of eight digits make one chunk of 4096 reserved characters, and a line of 4136. -/
theorem not_argvsFit : ¬ ∀ (site : Site) (level : ℕ), level < site.formats →
    ∀ (jobIds : List ℕ) (targets : List Text), ArgvsFit site level jobIds targets := by
  intro h
  set ids := List.range' 10000000 450 with hids
  have hfits :
      ∀ item ∈ ids.map idText, Fits narrowSite.cfg.argMax narrowSite.cfg.bjobsBaseLen item := by
    decide +kernel
  have hraised : (narrowSite.chunks ids).raised = none := raised_chunkArgs_eq_none_iff.mpr hfits
  have hone : (narrowSite.chunks ids).chunks = [ids.map idText] :=
    Packing.unique (fun _ _ => Within.of_append)
      (packing_chunkArgs narrowSite.cfg.chunkSize_range.1 _)
      (.singleton (by decide +kernel) ⟨by decide +kernel, by decide +kernel⟩)
      ((flatten_chunkArgs hfits).trans (List.flatten_singleton).symm)
  obtain ⟨s, c, hr, hc, hjobs, hall⟩ := exists_handed narrowSite 0 ids rfl hraised
  have hle := (h narrowSite 0 (by decide) ids []).1 s hr c hc hjobs _
    (hall (ids.map idText) (by rw [hone]; exact List.mem_singleton_self _))
  have hlen :
      lineLength (narrowSite.cfg.bjobsArgv (narrowSite.format 0) (ids.map idText)) = 4136 := by
    decide +kernel
  have hmax : (4136 : ℕ) ≤ 4096 := hlen ▸ hle
  omega

end Lsfmgr.Command
