import Mathlib
import Lsfmgr.Command.Formats

/-!
# Command/Isolation — a failing chunk costs its own ids

`bjobs_by_ids` keeps what the successful chunks answer, and names the ids of the failing ones.
After two failures in a row it stops, and the ids it has not asked for are named as well
(`Call.Inv`); so an id that is not named was asked for and answered.
-/

namespace Lsfmgr.Command

open Machinery

variable {site : Site} {g : Shared}

/-- The ids of some chunks. -/
def idsOfChunks (chunks : List (List Text)) : Finset ℕ := (chunks.map chunkIds).foldr (· ∪ ·) ∅

/-- The rows a chunk was answered with. -/
def answeredRows (site : Site) (asked : List Text × Attempt) : List JobStatus :=
  match asked.2.result site asked.1 with
  | .ok rows => rows
  | .error _ => []

/-- The query of a chunk failed: `_bjobs` raised `LsfCommandError`. -/
def queryFailed (site : Site) (asked : List Text × Attempt) : Bool :=
  match asked.2.result site asked.1 with
  | .error (.command _) => true
  | _ => false

theorem mem_idsOfChunks {chunks : List (List Text)} {id : ℕ} :
    id ∈ idsOfChunks chunks ↔ ∃ chunk ∈ chunks, id ∈ chunkIds chunk := by
  induction chunks with
  | nil => simp [idsOfChunks]
  | cons chunk chunks ih =>
    have hcons : idsOfChunks (chunk :: chunks) = chunkIds chunk ∪ idsOfChunks chunks := rfl
    rw [hcons, Finset.mem_union, ih]
    simp

@[simp] theorem idsOfChunks_nil : idsOfChunks [] = ∅ := rfl

theorem idsOfChunks_append (a b : List (List Text)) :
    idsOfChunks (a ++ b) = idsOfChunks a ∪ idsOfChunks b := by
  ext id
  simp only [Finset.mem_union, mem_idsOfChunks, List.mem_append, or_and_right, exists_or]

@[simp] theorem idsOfChunks_singleton (chunk : List Text) :
    idsOfChunks [chunk] = chunkIds chunk := by
  ext id
  simp [mem_idsOfChunks]

theorem mem_chunkIds {chunk : List Text} {id : ℕ} (h : idText id ∈ chunk) : id ∈ chunkIds chunk :=
  List.mem_toFinset.mpr (List.mem_map.mpr ⟨_, h, textId_idText id⟩)

/-! ## What a query is answered with -/

/-- **A query succeeds on rows with exit code 0 or beside the message that some job does not
exist.** -/
theorem Attempt.result_eq_ok_iff {chunk : List Text} {a : Attempt} {rows : List JobStatus} :
    a.result site chunk = .ok rows ↔ ∃ rc stdout stderr,
      a.answer = some (.result rc stdout stderr) ∧
      a.down = false ∧ (rc = 0 ∨ site.saysNoJob stdout stderr = true) ∧
      parseBjobs site.py site.parseTime stdout = .ok rows := by
  obtain ⟨fmtIdx, down, answer⟩ := a
  cases answer with
  | none => simp [Attempt.result]
  | some answer =>
    cases answer with
    | timeout | commandError | other => simp [Attempt.result, Site.runQuery]
    | result rc stdout stderr =>
      simp only [Attempt.result, Site.runQuery, Option.some.injEq, RunnerAnswer.result.injEq]
      cases down with
      | true => simp
      | false =>
        by_cases hexit : rc ≠ 0 ∧ site.saysNoJob stdout stderr = false
        · have hnot : ¬ (rc = 0 ∨ site.saysNoJob stdout stderr = true) := by
            rw [not_or, Bool.not_eq_true]
            exact hexit
          simp only [Bool.false_eq_true, if_false, if_pos hexit]
          constructor
          · intro h
            cases h
          · rintro ⟨rc, out, err, ⟨rfl, rfl, rfl⟩, -, h, -⟩
            exact absurd h hnot
        · have hyes : rc = 0 ∨ site.saysNoJob stdout stderr = true := by
            rw [not_and_or, not_not, Bool.not_eq_false] at hexit
            exact hexit
          simp only [Bool.false_eq_true, if_false, if_neg hexit]
          constructor
          · intro h
            cases hrows : parseBjobs site.py site.parseTime stdout with
            | error e => simp [hrows] at h
            | ok rows' =>
              simp only [hrows, Except.ok.injEq] at h
              exact ⟨rc, stdout, stderr, ⟨rfl, rfl, rfl⟩, trivial, hyes, h ▸ hrows⟩
          · rintro ⟨_, _, _, ⟨rfl, rfl, rfl⟩, -, -, h⟩
            simp [h]

/-- **It fails on a timeout, on any other exit code, and when the source is shut down.** -/
theorem queryFailed_iff {chunk : List Text} {a : Attempt} :
    queryFailed site (chunk, a) = true ↔ a.answer = none ∨ a.answer = some .timeout ∨
      (∃ e, a.answer = some (.commandError e)) ∨
      ∃ rc stdout stderr, a.answer = some (.result rc stdout stderr) ∧
        (a.down = true ∨ (rc ≠ 0 ∧ site.saysNoJob stdout stderr = false)) := by
  obtain ⟨fmtIdx, down, answer⟩ := a
  cases answer with
  | none => simp [queryFailed, Attempt.result]
  | some answer =>
    cases answer with
    | timeout | commandError | other => simp [queryFailed, Attempt.result, Site.runQuery]
    | result rc stdout stderr =>
      simp only [queryFailed, Attempt.result, Site.runQuery]
      cases down with
      | true => simp
      | false =>
        by_cases hexit : rc ≠ 0 ∧ site.saysNoJob stdout stderr = false
        · simp [hexit]
        · have hnot : ¬ ∃ rc' out err, some (RunnerAnswer.result rc stdout stderr)
              = some (.result rc' out err) ∧
              (false = true ∨ (rc' ≠ 0 ∧ site.saysNoJob out err = false)) := by
            rintro ⟨_, _, _, h, h' | h'⟩
            · cases h'
            · cases h
              exact hexit h'
          simp only [Bool.false_eq_true, if_false, if_neg hexit]
          cases hrows : parseBjobs site.py site.parseTime stdout with
          | ok rows => simpa using hexit
          | error e => simpa using hexit

/-! ## The loop over the chunks -/

/-- The chunks of the ids. -/
def Site.chunks (site : Site) (jobIds : List ℕ) : Chunking :=
  chunkArgs site.cfg.chunkSize site.cfg.argMax site.cfg.bjobsBaseLen (jobIds.map idText)

/-- The call is in its loop. -/
def Phase.looping : Phase → Bool
  | .loop | .bjobs _ => true
  | _ => false

/-- The chunks a call that has returned did not ask for. -/
def Call.skipped (c : Call) : List (List Text) :=
  match c.phase with
  | .returned => c.todo
  | _ => []

/-- What the loop has collected, in terms of the chunks asked for.  Two failures in a row are the
last chunks asked for, and the last there are unless the call has returned. -/
structure Call.Inv (site : Site) (c : Call) : Prop where
  chunks : (c.phase = .callback ∧ site.cfg.jobStatusFetcher = true) ∨
    (∃ message, c.phase = .argMax message ∧ (site.chunks c.jobIds).raised = some message) ∨
    (site.cfg.jobStatusFetcher = false ∧ (site.chunks c.jobIds).raised = none ∧
      (site.chunks c.jobIds).chunks = c.asked.map Prod.fst ++ c.todo)
  out : c.out = c.asked.flatMap (answeredRows site)
  failed : c.failed = idsOfChunks ((c.asked.filter (queryFailed site)).map Prod.fst) ∪
    idsOfChunks c.skipped
  consecutive : c.phase.looping = true →
    (1 ≤ c.consecutive ↔ ∃ front a, c.asked = front ++ [a] ∧ queryFailed site a = true)
  two : ∀ front a b back, c.asked = front ++ a :: b :: back → queryFailed site a = true →
    queryFailed site b = true → back = [] ∧ (c.phase.looping = true → c.todo = [])
  stopped : c.phase = .returned → c.todo ≠ [] → ∃ front a b, c.asked = front ++ [a, b] ∧
    queryFailed site a = true ∧ queryFailed site b = true
  raised : (∃ e ∈ c.asked, e.2.result site e.1 = .error .other) ↔ c.phase = .raised
  busy : ∀ stage, c.phase = .bjobs stage → c.todo ≠ []
  tooLong : ∀ message, c.phase = .argMax message → (site.chunks c.jobIds).raised = some message

namespace Call.Inv

variable {c : Call}

theorem start (jobIds : List ℕ) : (Call.start site jobIds).Inv site := by
  rw [Call.start]
  split
  case isTrue hf =>
    exact ⟨.inl ⟨rfl, hf⟩, rfl, rfl, by simp [Phase.looping], by simp, by simp, by simp,
      by simp, by simp⟩
  case isFalse hf =>
    have hf : site.cfg.jobStatusFetcher = false := by simpa using hf
    dsimp only
    split
    case h_1 message hraised =>
      exact ⟨.inr (.inl ⟨message, rfl, hraised⟩), rfl, rfl,
        by simp [Phase.looping], by simp, by simp, by simp, by simp,
        fun m hm => Phase.argMax.inj hm ▸ hraised⟩
    case h_2 hraised =>
      exact ⟨.inr (.inr ⟨hf, hraised, rfl⟩), rfl, rfl, by simp, by simp, by simp, by simp, by simp,
        by simp⟩

/-- In the loop there are chunks, and nothing has been left out. -/
theorem chunks_of_looping (h : c.Inv site) (hl : c.phase.looping = true) :
    site.cfg.jobStatusFetcher = false ∧ (site.chunks c.jobIds).raised = none ∧
      (site.chunks c.jobIds).chunks = c.asked.map Prod.fst ++ c.todo := by
  rcases h.chunks with ⟨hp, -⟩ | ⟨message, hp, -⟩ | h
  · simp [hp, Phase.looping] at hl
  · simp [hp, Phase.looping] at hl
  · exact h

theorem skipped_of_looping (hl : c.phase.looping = true) : c.skipped = [] := by
  rw [Call.skipped]
  split
  · rename_i hp
    simp [hp, Phase.looping] at hl
  · rfl

/-- Another point of the loop. -/
theorem move (h : c.Inv site) (hl : c.phase.looping = true) (ht : c.todo ≠ []) (stage : Stage)
    (handed : List (List Text)) : { c with phase := .bjobs stage, handed }.Inv site where
  chunks := .inr (.inr (h.chunks_of_looping hl))
  out := h.out
  failed := by
    rw [h.failed, skipped_of_looping hl]
    rfl
  consecutive _ := h.consecutive hl
  two front a b back ha hfa hfb :=
    ⟨(h.two front a b back ha hfa hfb).1, fun _ => (h.two front a b back ha hfa hfb).2 hl⟩
  stopped := by simp
  raised := by
    constructor
    · intro hother
      have hp := h.raised.mp hother
      simp [hp, Phase.looping] at hl
    · simp
  busy _ _ := ht
  tooLong := by simp

/-- The end of the chunks. -/
theorem done (h : c.Inv site) (hp : c.phase = .loop) (ht : c.todo = []) :
    { c with phase := .returned }.Inv site where
  chunks := .inr (.inr (h.chunks_of_looping (by rw [hp]; rfl)))
  out := h.out
  failed := by
    rw [h.failed, skipped_of_looping (by rw [hp]; rfl)]
    simp [Call.skipped, ht]
  consecutive := by simp [Phase.looping]
  two front a b back ha hfa hfb := ⟨(h.two front a b back ha hfa hfb).1, by simp [Phase.looping]⟩
  stopped _ hne := absurd ht hne
  raised := by
    constructor
    · intro hother
      have := hp ▸ h.raised.mp hother
      cases this
    · simp
  busy := by simp
  tooLong := by simp

/-- Two failures in a row, with one more chunk asked for: it is the second of them. -/
theorem two_append {asked front back : List (List Text × Attempt)} {a b e : List Text × Attempt}
    (h : asked ++ [e] = front ++ a :: b :: back) :
    (back = [] ∧ b = e ∧ asked = front ++ [a]) ∨ ∃ back', asked = front ++ a :: b :: back' := by
  induction back using List.reverseRecOn with
  | nil =>
    have h' : asked ++ [e] = (front ++ [a]) ++ [b] := by simpa using h
    obtain ⟨hasked, he⟩ := List.append_inj' h' rfl
    exact .inl ⟨rfl, (List.singleton_inj.mp he).symm, hasked⟩
  | append_singleton back x _ =>
    have h' : asked ++ [e] = (front ++ a :: b :: back) ++ [x] := by simpa using h
    exact .inr ⟨back, (List.append_inj' h' rfl).1⟩

variable {chunk : List Text} {rest : List (List Text)} {last : Attempt} {runs : ℕ}

/-- **The end of a `_bjobs` call.** -/
theorem collect (h : c.Inv site) (hp : c.phase = .bjobs (.ended last runs))
    (ht : c.todo = chunk :: rest) :
    (c.collect chunk rest last (last.result site chunk)).Inv site := by
  have hl : c.phase.looping = true := by rw [hp]; rfl
  obtain ⟨hf, hraised, hchunks⟩ := h.chunks_of_looping hl
  have hchunks' : (site.chunks c.jobIds).chunks
      = (c.asked ++ [(chunk, last)]).map Prod.fst ++ rest := by
    rw [hchunks, ht]
    simp
  have hfailed : c.failed = idsOfChunks ((c.asked.filter (queryFailed site)).map Prod.fst) := by
    rw [h.failed, skipped_of_looping hl]
    simp
  have hnone : ¬ ∃ e ∈ c.asked, e.2.result site e.1 = .error .other := fun hother => by
    have := hp ▸ h.raised.mp hother
    cases this
  have hnotwo : ∀ front a b back, c.asked = front ++ a :: b :: back → queryFailed site a = true →
      queryFailed site b = true → False := fun front a b back ha hfa hfb => by
    have := (h.two front a b back ha hfa hfb).2 hl
    simp [ht] at this
  cases hres : last.result site chunk with
  | ok rows =>
    have hq : queryFailed site (chunk, last) = false := by simp [queryFailed, hres]
    have hr : answeredRows site (chunk, last) = rows := by simp [answeredRows, hres]
    refine ⟨.inr (.inr ⟨hf, hraised, hchunks'⟩), ?_, ?_, fun _ => ?_, ?_,
      by simp [Call.collect], ?_, by simp [Call.collect], by simp [Call.collect]⟩
    · simp [Call.collect, h.out, hr]
    · simp [Call.collect, hfailed, Call.skipped, hq]
    · simp only [Call.collect]
      refine ⟨fun hzero => absurd hzero (by decide), ?_⟩
      rintro ⟨front, a, ha, hfa⟩
      obtain rfl := List.singleton_inj.mp (List.append_inj' ha rfl).2
      simp [hq] at hfa
    · intro front a b back ha hfa hfb
      rcases two_append ha with ⟨-, rfl, -⟩ | ⟨back', hback⟩
      · simp [hq] at hfb
      · exact (hnotwo front a b back' hback hfa hfb).elim
    · constructor
      · rintro ⟨e, he, hother⟩
        rcases List.mem_append.mp he with he | he
        · exact absurd ⟨e, he, hother⟩ hnone
        · obtain rfl := List.mem_singleton.mp he
          simp [hres] at hother
      · simp [Call.collect]
  | error f =>
    cases f with
    | other =>
      have hq : queryFailed site (chunk, last) = false := by simp [queryFailed, hres]
      have hr : answeredRows site (chunk, last) = [] := by simp [answeredRows, hres]
      refine ⟨.inr (.inr ⟨hf, hraised, hchunks'⟩), ?_, ?_,
        by simp [Call.collect, Phase.looping], ?_, by simp [Call.collect], ?_,
        by simp [Call.collect], by simp [Call.collect]⟩
      · simp [Call.collect, h.out, hr]
      · simp [Call.collect, hfailed, Call.skipped, hq]
      · intro front a b back ha hfa hfb
        rcases two_append ha with ⟨-, rfl, -⟩ | ⟨back', hback⟩
        · simp [hq] at hfb
        · exact (hnotwo front a b back' hback hfa hfb).elim
      · exact ⟨fun _ => rfl, fun _ => ⟨(chunk, last), by simp [Call.collect], hres⟩⟩
    | command e =>
      have hq : queryFailed site (chunk, last) = true := by simp [queryFailed, hres]
      have hr : answeredRows site (chunk, last) = [] := by simp [answeredRows, hres]
      have hids :
        idsOfChunks (((c.asked ++ [(chunk, last)]).filter (queryFailed site)).map Prod.fst)
          = c.failed ∪ chunkIds chunk := by
        simp [hfailed, hq, idsOfChunks_append]
      have hraised' : ¬ ∃ x ∈ c.asked ++ [(chunk, last)], x.2.result site x.1 = .error .other := by
        rintro ⟨x, hx, hother⟩
        rcases List.mem_append.mp hx with hx | hx
        · exact hnone ⟨x, hx, hother⟩
        · obtain rfl := List.mem_singleton.mp hx
          simp [hres] at hother
      simp only [Call.collect]
      split_ifs with hstop
      · refine ⟨.inr (.inr ⟨hf, hraised, hchunks'⟩), ?_, ?_,
          by simp [Phase.looping], ?_, fun _ _ => ?_, ?_, by simp, by simp⟩
        · simp [h.out, hr]
        · rw [hids]
          rfl
        · intro front a b back ha hfa hfb
          rcases two_append ha with ⟨rfl, -, -⟩ | ⟨back', hback⟩
          · exact ⟨rfl, by simp [Phase.looping]⟩
          · exact (hnotwo front a b back' hback hfa hfb).elim
        · obtain ⟨front, a, ha, hfa⟩ := (h.consecutive hl).mp (by omega)
          exact ⟨front, a, (chunk, last), by simp [ha], hfa, hq⟩
        · exact ⟨fun hother => absurd hother hraised', by simp⟩
      · refine ⟨.inr (.inr ⟨hf, hraised, hchunks'⟩), ?_, ?_, fun _ => ?_, ?_, by simp, ?_, by simp,
          by simp⟩
        · simp [h.out, hr]
        · rw [hids]
          simp [Call.skipped]
        · exact ⟨fun _ => ⟨c.asked, (chunk, last), rfl, hq⟩, fun _ => Nat.le_add_left 1 _⟩
        · intro front a b back ha hfa hfb
          rcases two_append ha with ⟨rfl, -, hback⟩ | ⟨back', hback⟩
          · -- the chunk before failed, too, so this one must be the last
            have hone := (h.consecutive hl).mpr ⟨front, a, hback, hfa⟩
            refine ⟨rfl, fun _ => ?_⟩
            by_contra hne
            exact hstop ⟨by omega, hne⟩
          · exact (hnotwo front a b back' hback hfa hfb).elim
        · exact ⟨fun hother => absurd hother hraised', by simp⟩

theorem step {m : CallMove} {out : ℕ × Call} (h : c.Inv site) (hstep : c.step site g m = some out) :
    out.2.Inv site := by
  rcases Call.step_cases hstep with ⟨-, hp, ht, rfl⟩ | ⟨chunk, rest, -, hp, ht, rfl⟩ |
    ⟨m', stage, chunk, rest, out', -, hp, ht, -, rfl⟩ | ⟨last, runs, chunk, rest, -, hp, ht, rfl⟩
  · exact h.done hp ht
  · exact h.move (by rw [hp]; rfl) (by simp [ht]) _ _
  · exact h.move (by rw [hp]; rfl) (by simp [ht]) _ _
  · exact h.collect hp ht

end Call.Inv

theorem Call.Inv.of_reachable {level : ℕ} {s : State} (h : (queries site level).Reachable s) :
    ∀ c ∈ s.calls, c.Inv site := by
  refine h.invariant (I := fun s => ∀ c ∈ s.calls, c.Inv site) (fun s hs => ?_)
    fun s a s' _ hinv _ hstep => ?_
  · rw [show s = _ from hs]
    simp
  · rcases State.step_cases hstep with ⟨jobIds, rfl, rfl⟩ | ⟨i, m, c, out, rfl, hc, hout, rfl⟩ |
      ⟨rfl, rfl⟩
    · intro c hc
      rcases List.mem_append.mp hc with hc | hc
      · exact hinv c hc
      · obtain rfl := List.mem_singleton.mp hc
        exact .start jobIds
    · intro c' hc'
      rcases mem_replaceAt hc' with hold | hnew
      · exact hinv c' hold
      · obtain rfl := List.mem_singleton.mp hnew
        exact (hinv c (List.mem_of_getElem? hc)).step hout
    · exact hinv

/-! ## A call ends -/

/-- A bound on the steps that are left before the call ends. -/
def Call.left (site : Site) (fmtIdx : ℕ) (c : Call) : ℕ :=
  match c.phase with
  | .loop => c.todo.length * (4 * site.formats + 3) + 1
  | .bjobs stage =>
    (c.todo.length - 1) * (4 * site.formats + 3) + 2 + stage.left site.formats fmtIdx
  | _ => 0

theorem Call.left_mono {fmtIdx fmtIdx' : ℕ} (c : Call) (hle : fmtIdx ≤ fmtIdx') :
    c.left site fmtIdx' ≤ c.left site fmtIdx := by
  simp only [Call.left]
  split
  · exact le_rfl
  · exact Nat.add_le_add_left (Stage.left_mono _ _ hle) _
  · exact le_rfl

/-- **Each step of a call brings its end nearer.** -/
theorem State.Inv.call_left_step {s : State} (h : s.Inv site) {c : Call} (hc : c ∈ s.calls)
    {m : CallMove} {out : ℕ × Call} (hstep : c.step site s.shared m = some out) :
    out.2.left site out.1 < c.left site s.shared.fmtIdx := by
  rcases Call.step_cases hstep with ⟨-, hp, ht, rfl⟩ | ⟨chunk, rest, -, hp, ht, rfl⟩ |
    ⟨m', stage, chunk, rest, out', -, hp, ht, hst, rfl⟩ | ⟨last, runs, chunk, rest, -, hp, ht, rfl⟩
  · simp [Call.left, hp]
  · have hlt := h.lt
    simp only [Call.left, hp, ht, List.length_cons, Nat.add_sub_cancel, Stage.left, Nat.succ_mul]
    omega
  · have hlt := Stage.left_step (h.ok c hc stage hp) hst
    simp only [Call.left, hp]
    exact Nat.add_lt_add_left hlt _
  · have hle : (c.collect chunk rest last (last.result site chunk)).left site s.shared.fmtIdx
        ≤ rest.length * (4 * site.formats + 3) + 1 := by
      simp only [Call.collect]
      split
      · exact le_rfl
      · split_ifs
        · exact Nat.zero_le _
        · exact le_rfl
      · exact Nat.zero_le _
    refine lt_of_le_of_lt hle ?_
    simp [Call.left, hp, ht, Stage.left]

/-- A call in its loop can go on, whatever the runner answers. -/
theorem Call.Inv.enabled {c : Call} (h : c.Inv site) (g : Shared) (hl : c.phase.looping = true)
    (answer : RunnerAnswer) :
    ∃ m ∈ [CallMove.next, .collect, .bjobs .select, .bjobs .run, .bjobs (.answer answer),
      .bjobs .degrade], (c.step site g m).isSome := by
  cases hp : c.phase with
  | loop =>
    refine ⟨.next, by simp, ?_⟩
    cases ht : c.todo <;> simp [Call.step, hp, ht]
  | bjobs stage =>
    obtain ⟨chunk, rest, ht⟩ := List.exists_cons_of_ne_nil (h.busy stage hp)
    by_cases hend : ∃ last runs, stage = .ended last runs
    · obtain ⟨last, runs, rfl⟩ := hend
      exact ⟨.collect, by simp, by simp [Call.step, hp, ht]⟩
    · obtain ⟨m, hm, hsome⟩ := Stage.enabled site chunk g stage answer
        fun last runs heq => hend ⟨last, runs, heq⟩
      refine ⟨.bjobs m, ?_, by simpa [Call.step, hp, ht] using hsome⟩
      simp only [List.mem_cons, List.not_mem_nil, or_false] at hm ⊢
      rcases hm with rfl | rfl | rfl | rfl <;> simp
  | returned | argMax | raised | callback => simp [hp, Phase.looping] at hl

/-- **The failures of chunks are isolated**, for any ids, any split and any answers.  A call that
has returned has the rows of the successful chunks, in order; it names the ids of the failing ones,
and of those it did not ask for after two failures in a row; every other id was asked for, in a
chunk whose query succeeded.  A query succeeds with exit code 0 or beside the message that some job
does not exist, and its rows are those it printed.  A call ends, and raises only what no chunk
accounts for: an argument too long, or an exception that is no `LsfCommandError`. -/
theorem bjobsByIds_isolates (site : Site) {s : State} (h : (queries site 0).Reachable s) {c : Call}
    (hc : c ∈ s.calls) :
    (c.phase = .returned →
      (site.chunks c.jobIds).chunks = c.asked.map Prod.fst ++ c.todo ∧
      c.out = c.asked.flatMap (answeredRows site) ∧
      c.failed = idsOfChunks ((c.asked.filter (queryFailed site)).map Prod.fst) ∪
        idsOfChunks c.todo ∧
      (c.todo ≠ [] → ∃ front a b, c.asked = front ++ [a, b] ∧ queryFailed site a = true ∧
        queryFailed site b = true) ∧
      (∀ front a b back, c.asked = front ++ a :: b :: back → queryFailed site a = true →
        queryFailed site b = true → back = []) ∧
      ∀ id ∈ c.jobIds, id ∉ c.failed → ∃ chunk last rows, (chunk, last) ∈ c.asked ∧
        idText id ∈ chunk ∧ last.result site chunk = .ok rows) ∧
    (∀ chunk last, (chunk, last) ∈ c.asked →
      (∀ rows, last.result site chunk = .ok rows ↔ ∃ rc stdout stderr,
        last.answer = some (.result rc stdout stderr) ∧ last.down = false ∧
          (rc = 0 ∨ site.saysNoJob stdout stderr = true) ∧
          parseBjobs site.py site.parseTime stdout = .ok rows) ∧
      (queryFailed site (chunk, last) = true ↔ last.answer = none ∨ last.answer = some .timeout ∨
        (∃ e, last.answer = some (.commandError e)) ∨
        ∃ rc stdout stderr, last.answer = some (.result rc stdout stderr) ∧
          (last.down = true ∨ (rc ≠ 0 ∧ site.saysNoJob stdout stderr = false)))) ∧
    ((c.phase = .raised ↔ ∃ e ∈ c.asked, e.2.result site e.1 = .error .other) ∧
      (∀ message, c.phase = .argMax message ↔ c.phase ≠ .callback ∧
        (site.chunks c.jobIds).raised = some message)) ∧
    ((c.phase.looping = true → ∀ answer, ∃ m ∈ [CallMove.next, .collect, .bjobs .select,
        .bjobs .run, .bjobs (.answer answer), .bjobs .degrade],
          (c.step site s.shared m).isSome) ∧
      (∀ m out, c.step site s.shared m = some out →
        out.2.left site out.1 < c.left site s.shared.fmtIdx) ∧
      ∀ a s', s.step site a = some s' →
        c.left site s'.shared.fmtIdx ≤ c.left site s.shared.fmtIdx) := by
  have hstate := State.Inv.of_reachable (formats_pos site) h
  have hinv := Call.Inv.of_reachable h c hc
  refine ⟨fun hp => ?_, fun chunk last _ => ⟨fun rows => Attempt.result_eq_ok_iff, queryFailed_iff⟩,
    ⟨hinv.raised.symm, fun message => ?_⟩, hinv.enabled s.shared,
    fun m out hstep => hstate.call_left_step hc hstep,
    fun a s' hstep => c.left_mono (hstate.le_of_step hstep)⟩
  · have hskip : c.skipped = c.todo := by rw [Call.skipped, hp]
    have hfailed : c.failed = _ := hskip ▸ hinv.failed
    obtain ⟨hraised, hchunks⟩ : (site.chunks c.jobIds).raised = none ∧
        (site.chunks c.jobIds).chunks = c.asked.map Prod.fst ++ c.todo := by
      rcases hinv.chunks with ⟨hp', -⟩ | ⟨message, hp', -⟩ | ⟨-, hraised, hchunks⟩
      · cases hp.symm.trans hp'
      · cases hp.symm.trans hp'
      · exact ⟨hraised, hchunks⟩
    refine ⟨hchunks, hinv.out, hfailed, hinv.stopped hp, fun front a b back ha hfa hfb =>
      (hinv.two front a b back ha hfa hfb).1, fun id hid hnot => ?_⟩
    have hmem : idText id ∈ (site.chunks c.jobIds).chunks.flatten := by
      rw [Site.chunks, flatten_chunkArgs (raised_chunkArgs_eq_none_iff.mp hraised)]
      exact List.mem_map_of_mem hid
    rw [hfailed, Finset.mem_union, not_or] at hnot
    obtain ⟨chunk, hchunk, hin⟩ := List.mem_flatten.mp hmem
    rw [hchunks, List.mem_append] at hchunk
    rcases hchunk with hasked | htodo
    · obtain ⟨⟨chunk, last⟩, hentry, rfl⟩ := List.mem_map.mp hasked
      cases hres : last.result site chunk with
      | ok rows => exact ⟨chunk, last, rows, hentry, hin, hres⟩
      | error f =>
        cases f with
        | other => cases hp.symm.trans (hinv.raised.mp ⟨(chunk, last), hentry, hres⟩)
        | command e =>
          refine absurd (mem_idsOfChunks.mpr ⟨chunk, ?_, mem_chunkIds hin⟩) hnot.1
          exact List.mem_map.mpr ⟨(chunk, last), List.mem_filter.mpr ⟨hentry, by
            simp [queryFailed, hres]⟩, rfl⟩
    · exact absurd (mem_idsOfChunks.mpr ⟨chunk, htodo, mem_chunkIds hin⟩) hnot.2
  · rcases hinv.chunks with ⟨hp, -⟩ | ⟨message', hp, hraised⟩ | ⟨-, hraised, hchunks⟩
    · simp [hp]
    · simp [hp, hraised]
    · refine ⟨fun hp => ⟨by simp [hp], hinv.tooLong message hp⟩, ?_⟩
      rintro ⟨-, hsome⟩
      simp [hraised] at hsome

/-- Four chunks of one id: the first is answered, two time out, and the last is not asked for. -/
theorem bjobsByIds_isolates_four :
    ∃ (site : Site) (s : State) (c : Call), (queries site 0).Reachable s ∧ c ∈ s.calls ∧
      c.phase = .returned ∧ c.jobIds = [1, 2, 3, 4] ∧ c.out.map (·.jobId) = [1] ∧
      c.failed = {2, 3, 4} ∧ ∃ chunk last rows, (chunk, last) ∈ c.asked ∧ idText 1 ∈ chunk ∧
        last.result site chunk = .ok rows := by
  let site : Site := { plainSite with cfg := { chunkSize := 1 } }
  let query (answer : RunnerAnswer) : List Act :=
    [CallMove.next, .bjobs .select, .bjobs .run, .bjobs (.answer answer), .collect].map (.move 0)
  let test (c : Call) : Bool :=
    (match c.phase with
      | .returned => true
      | _ => false) && decide (c.jobIds = [1, 2, 3, 4] ∧ c.out.map (·.jobId) = [1] ∧
      c.failed = {2, 3, 4})
  have hrun : ((queries site 0).run { shared := ⟨0, false⟩ }
      (.call [1, 2, 3, 4] :: (query (.result 255 "1;RUN;-".toList "is not found".toList) ++
        query .timeout ++ query .timeout))).bind
        (fun s => if s.calls.any test then some () else none) = some () := by decide +kernel
  obtain ⟨s, hs, htest⟩ := Option.bind_eq_some_iff.mp hrun
  rw [Option.ite_none_right_eq_some] at htest
  obtain ⟨c, hc, htest⟩ := List.any_eq_true.mp htest.1
  have hreach := System.reachable_of_run (.init rfl) hs
  simp only [test, Bool.and_eq_true, decide_eq_true_eq] at htest
  obtain ⟨hp, hids, hout, hfailed⟩ := htest
  have hp : c.phase = .returned := by
    split at hp
    · assumption
    · cases hp
  refine ⟨site, s, c, hreach, hc, hp, hids, hout, hfailed, ?_⟩
  have hisolated := ((bjobsByIds_isolates site hreach hc).1 hp).2.2.2.2.2
  exact hisolated 1 (by rw [hids]; decide) (by rw [hfailed]; decide)

end Lsfmgr.Command
