import Mathlib
import Lsfmgr.Kill.Output
import Lsfmgr.Store.States

/-!
# Kill/Targets — the strings a kill is aimed with

A target is an id, `id[idx]` or `id[m-n]`.  What is none of these counts as the id it begins with,
up to a bracket, or is ignored.  The digits are converted with `int`, which does not take all that
`isdigit` does, nor any number of them: then the classification raises.
-/

namespace Lsfmgr.Kill

open Machinery

section

variable (py : Python)

/-- `int` of a string of digits. -/
def readDigits (l : Text) : Except PyError ℕ :=
  match (l.mapM py.decimal?).bind py.number? with
  | some n => .ok n
  | none => .error .valueError

/-- `target_parent_id` -/
def targetParentId (target : Text) : Except PyError (Option ℕ) :=
  let head := before '[' target
  if py.allDigits head then (readDigits py head).map some else .ok none

/-- The digits `_TARGET_RE` captures. -/
inductive TargetMatch
  | id (id : Text)
  | element (id index : Text)
  | range (id lo hi : Text)
  deriving DecidableEq

/-- `(\d+)(?:-(\d+))?\]$` of `_TARGET_RE` -/
def matchBracket (id : Text) (l : Text) : Option TargetMatch :=
  let lo := l.takeWhile (isDecimal py)
  match l.dropWhile (isDecimal py) with
  | ']' :: l => if lo ≠ [] ∧ atEnd l then some (.element id lo) else none
  | '-' :: l =>
    let hi := l.takeWhile (isDecimal py)
    match l.dropWhile (isDecimal py) with
    | ']' :: l => if lo ≠ [] ∧ hi ≠ [] ∧ atEnd l then some (.range id lo hi) else none
    | _ => none
  | _ => none

/-- What follows the id in `_TARGET_RE`. -/
def matchIndex (id : Text) (l : Text) : Option TargetMatch :=
  if atEnd l then some (.id id)
  else
    match l with
    | '[' :: l => matchBracket py id l
    | _ => none

/-- `_TARGET_RE.match` -/
def matchTarget (target : Text) : Option TargetMatch :=
  let id := target.takeWhile (isDecimal py)
  if id = [] then none else matchIndex py id (target.dropWhile (isDecimal py))

/-- What a target denotes. -/
inductive Selector
  /-- A job, or every element of an array. -/
  | whole (jobId : ℕ)
  | exact (jobId index : ℕ)
  | range (jobId lo hi : ℕ)
  deriving DecidableEq

/-- One target of `classify_targets`; `none` if it is ignored. -/
def classifyTarget (target : Text) : Except PyError (Option Selector) :=
  match matchTarget py target with
  | none => (targetParentId py target).map (·.map .whole)
  | some (.id id) => (readDigits py id).map fun pid => some (.whole pid)
  | some (.element id index) => do
    let pid ← readDigits py id
    let index ← readDigits py index
    .ok (some (.exact pid index))
  | some (.range id lo hi) => do
    let pid ← readDigits py id
    let lo ← readDigits py lo
    let hi ← readDigits py hi
    .ok (some (.range pid lo hi))

/-- `classify_targets` -/
structure Classes where
  whole : Finset ℕ := ∅
  exact : Finset (ℕ × ℕ) := ∅
  ranges : List (ℕ × ℕ × ℕ) := []
  deriving DecidableEq

/-- A target goes to its class. -/
def Classes.add (cls : Classes) : Option Selector → Classes
  | none => cls
  | some (.whole pid) => { cls with whole := insert pid cls.whole }
  | some (.exact pid index) => { cls with exact := insert (pid, index) cls.exact }
  | some (.range pid lo hi) => { cls with ranges := cls.ranges ++ [(pid, lo, hi)] }

def classifyTargets (targets : List Text) : Except PyError Classes :=
  targets.foldlM (fun cls t => (classifyTarget py t).map cls.add) {}

end

/-- `hit` of `_matching`: a row without an index, single or folded, is hit by whole ids only. -/
def Classes.hit (cls : Classes) (jobId arrayIndex : Option ℕ) : Bool :=
  match jobId with
  | none => false
  | some pid =>
    if pid ∈ cls.whole then true
    else
      match arrayIndex with
      | none => false
      | some index => (pid, index) ∈ cls.exact ||
          cls.ranges.any fun (p, lo, hi) => pid = p ∧ lo ≤ index ∧ index ≤ hi

/-- `_matching` on the rows of a query. -/
def matching (pool : List JobStatus) (cls : Classes) : List JobStatus :=
  pool.filter fun st => cls.hit (some st.jobId) st.arrayIndex

/-- `_id_str` of a job id and an index -/
def idStr (jobId : ℕ) : Option ℕ → Text
  | some index => Nat.toDigits 10 jobId ++ '[' :: Nat.toDigits 10 index ++ [']']
  | none => Nat.toDigits 10 jobId

/-- The target is one of the job with this index. -/
def Selector.selects : Selector → Option ℕ → Bool
  | .whole _, _ => true
  | .exact _ i, index => index = some i
  | .range _ lo hi, index => index.any fun i => lo ≤ i ∧ i ≤ hi

def Selector.jobId : Selector → ℕ
  | .whole pid | .exact pid _ | .range pid _ _ => pid

/-- The target is an element or a range of elements. -/
def Selector.isPart : Selector → Bool
  | .whole _ => false
  | .exact .. | .range .. => true

/-! ## One target -/

/-- The digits of the id. -/
def TargetMatch.idDigits : TargetMatch → Text
  | .id digits | .element digits _ | .range digits _ _ => digits

theorem idDigits_of_matchBracket {py : Python} {digits l : Text} {m : TargetMatch}
    (h : matchBracket py digits l = some m) : m.idDigits = digits := by
  rw [matchBracket] at h
  split at h
  · split_ifs at h
    exact Option.some.inj h ▸ rfl
  · split at h
    · dsimp only at h
      split_ifs at h
      exact Option.some.inj h ▸ rfl
    · cases h
  · cases h

theorem matchIndex_eq_some {py : Python} {digits l : Text} {m : TargetMatch}
    (h : matchIndex py digits l = some m) :
    m.idDigits = digits ∧ (l = [] ∨ l = ['\n'] ∨ ∃ l', l = '[' :: l') := by
  by_cases hend : atEnd l = true
  · simp only [matchIndex, hend, if_true, Option.some.injEq] at h
    refine ⟨h ▸ rfl, ?_⟩
    match l, hend with
    | [], _ => exact .inl rfl
    | [c], hc => exact .inr (.inl (by rw [of_decide_eq_true hc]))
  · rw [matchIndex.eq_def, if_neg hend] at h
    split at h
    · exact ⟨idDigits_of_matchBracket h, .inr (.inr ⟨_, rfl⟩)⟩
    · cases h

/-- What `int` makes of the digits of the id. -/
theorem readDigits_of_classify {py : Python} {t : Text} {m : TargetMatch} {sel : Option Selector}
    (hm : matchTarget py t = some m) (hc : classifyTarget py t = .ok sel) :
    ∃ s, sel = some s ∧ readDigits py m.idDigits = .ok s.jobId := by
  rw [classifyTarget, hm] at hc
  cases m with
  | id digits =>
    cases hd : readDigits py digits with
    | error e => simp [hd, Except.map] at hc
    | ok n =>
      simp only [hd, Except.map, Except.ok.injEq] at hc
      exact ⟨_, hc.symm, hd⟩
  | element digits index =>
    cases hd : readDigits py digits with
    | error e => simp [hd, bind, Except.bind] at hc
    | ok n =>
      cases hi : readDigits py index with
      | error e => simp [hd, hi, bind, Except.bind] at hc
      | ok i =>
        simp only [hd, hi, bind, Except.bind, Except.ok.injEq] at hc
        exact ⟨_, hc.symm, hd⟩
  | range digits lo hi =>
    cases hd : readDigits py digits with
    | error e => simp [hd, bind, Except.bind] at hc
    | ok n =>
      cases hl : readDigits py lo with
      | error e => simp [hd, hl, bind, Except.bind] at hc
      | ok i =>
        cases hh : readDigits py hi with
        | error e => simp [hd, hl, hh, bind, Except.bind] at hc
        | ok j =>
          simp only [hd, hl, hh, bind, Except.bind, Except.ok.injEq] at hc
          exact ⟨_, hc.symm, hd⟩

/-- The parent of a target, and the job of what it denotes. -/
theorem jobId_of_parent {py : Python} (hpy : py.Lawful) {t : Text} {pid : ℕ}
    {sel : Option Selector} (hp : targetParentId py t = .ok (some pid))
    (hc : classifyTarget py t = .ok sel) : ∃ s, sel = some s ∧ s.jobId = pid := by
  rw [classifyTarget] at hc
  cases hm : matchTarget py t with
  | none =>
    simp only [hm, hp, Except.map, Option.map_some, Except.ok.injEq] at hc
    exact ⟨.whole pid, hc.symm, rfl⟩
  | some m =>
    obtain ⟨s, rfl, hread⟩ := readDigits_of_classify hm hc
    refine ⟨s, rfl, ?_⟩
    rw [matchTarget] at hm
    split_ifs at hm with hne
    obtain ⟨hid, hrest⟩ := matchIndex_eq_some hm
    have hbracket : ∀ c ∈ t.takeWhile (isDecimal py), decide (c ≠ '[') = true := fun c hc => by
      have hdec : isDecimal py c = true := List.mem_takeWhile_imp hc
      rw [decide_eq_true_eq]
      rintro rfl
      rw [isDecimal, hpy.decimal_symbol '[' (by simp)] at hdec
      cases hdec
    have hbefore : before '[' t = t.takeWhile (isDecimal py) ++
        before '[' (t.dropWhile (isDecimal py)) := by
      conv_lhs => rw [← List.takeWhile_append_dropWhile (p := isDecimal py) (l := t)]
      exact List.takeWhile_append_of_pos hbracket
    by_cases hdig : py.allDigits (before '[' t) = true
    case neg => simp [targetParentId, hdig] at hp
    have hhead : before '[' t = m.idDigits := by
      rw [hid, hbefore]
      rcases hrest with h | h | ⟨l, h⟩
      · simp [h, before]
      · -- `isdigit` does not take the newline `$` lets pass
        have hall : (before '[' t).all py.isDigit = true := (of_decide_eq_true hdig).2
        rw [hbefore, h] at hall
        simp [before, hpy.isDigit_newline] at hall
      · simp [h, before]
    rw [hhead] at hdig
    simpa [targetParentId, hhead, hdig, hread, Except.map] using hp

/-- The classes of one target. -/
theorem classifyTargets_singleton {py : Python} {t : Text} {sel : Option Selector}
    (h : classifyTarget py t = .ok sel) : classifyTargets py [t] = .ok (Classes.add {} sel) := by
  simp [classifyTargets, h, Except.map]

/-- One target hits the rows it selects. -/
theorem hit_add_iff (sel : Selector) (pid : ℕ) (index : Option ℕ) :
    (Classes.add {} (some sel)).hit (some pid) index = true ↔
      pid = sel.jobId ∧ sel.selects index = true := by
  cases sel with
  | whole p => cases index <;> simp [Classes.add, Classes.hit, Selector.jobId, Selector.selects]
  | exact p i => cases index <;> simp [Classes.add, Classes.hit, Selector.jobId, Selector.selects]
  | range p lo hi =>
    cases index <;> simp [Classes.add, Classes.hit, Selector.jobId, Selector.selects]

end Lsfmgr.Kill
