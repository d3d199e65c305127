import Mathlib

/-!
# Machinery/Shlex — command lines as a shell reads them

`split` reads a command line into words, `join` writes words into a command line, quoting those that
need it.  What is written is read back (`split_join`), whatever is in the words.  The lexer goes
through the text one character at a time; only at the end does it see that a quotation was not
closed.
-/

namespace Machinery

namespace Shlex

/-- What the lexer is in the middle of; after a backslash it goes back into a word, or into a double
quotation. -/
inductive Mode
  | space
  | word
  | single
  | double
  | escape (inside : Bool)
  deriving DecidableEq

structure Lexer where
  mode : Mode := .space
  /-- The word has had a quotation: it counts even if it is empty. -/
  quoted : Bool := false
  word : List Char := []
  words : List (List Char) := []
  deriving DecidableEq

inductive SplitError
  | noClosingQuotation
  | noEscapedCharacter
  deriving DecidableEq

def isBlank (c : Char) : Bool := c = ' ' || c = '\t' || c = '\r' || c = '\n'

namespace Lexer

variable (l : Lexer)

/-- The words, with the one that has just ended. -/
def ended : List (List Char) := if l.word ≠ [] ∨ l.quoted then l.words ++ [l.word] else l.words

def add (text : List Char) (mode : Mode) : Lexer := { l with word := l.word ++ text, mode := mode }

def step (c : Char) : Lexer :=
  match l.mode with
  | .space =>
    if isBlank c then l
    else if c = '\\' then { l with mode := .escape false }
    else if c = '\'' then { l with mode := .single }
    else if c = '"' then { l with mode := .double }
    else { l with word := [c], mode := .word }
  | .single => if c = '\'' then { l with quoted := true, mode := .word }
      else { l with quoted := true }.add [c] .single
  | .double =>
    if c = '"' then { l with quoted := true, mode := .word }
    else if c = '\\' then { l with quoted := true, mode := .escape true }
    else { l with quoted := true }.add [c] .double
  | .escape inside =>
    -- between quotation marks a backslash stands for itself, except before another and before the
    -- mark
    if inside ∧ c ≠ '\\' ∧ c ≠ '"' then l.add ['\\', c] .double
    else l.add [c] (if inside then .double else .word)
  | .word =>
    if isBlank c then { words := l.ended }
    else if c = '\'' then { l with mode := .single }
    else if c = '"' then { l with mode := .double }
    else if c = '\\' then { l with mode := .escape false }
    else l.add [c] .word

def read (text : List Char) : Lexer := text.foldl step l

def finish : Except SplitError (List (List Char)) :=
  match l.mode with
  | .space => .ok l.words
  | .word => .ok l.ended
  | .single | .double => .error .noClosingQuotation
  | .escape _ => .error .noEscapedCharacter

end Lexer

def split (text : List Char) : Except SplitError (List (List Char)) :=
  (({} : Lexer).read text).finish

/-- A character that a shell takes as it is. -/
def isSafe (c : Char) : Bool :=
  c.isAlphanum || c ∈ ['_', '@', '%', '+', '=', ':', ',', '.', '/', '-']

/-- The text between single quotation marks; such a mark itself is put between double ones. -/
def escaped (word : List Char) : List Char :=
  word.flatMap fun c => if c = '\'' then ['\'', '"', '\'', '"', '\''] else [c]

def quote (word : List Char) : List Char :=
  if word = [] then ['\'', '\'']
  else if word.all isSafe then word
  else '\'' :: escaped word ++ ['\'']

def join (words : List (List Char)) : List Char := [' '].intercalate (words.map quote)

/-! ## Reading what was written -/

namespace Lexer

variable {l : Lexer}

@[simp] theorem read_nil (l : Lexer) : l.read [] = l := rfl

@[simp] theorem read_cons (l : Lexer) (c : Char) (text : List Char) :
    l.read (c :: text) = (l.step c).read text := rfl

@[simp] theorem read_append (l : Lexer) (text text' : List Char) :
    l.read (text ++ text') = (l.read text).read text' := List.foldl_append

theorem isSafe_plain {c : Char} (h : isSafe c = true) :
    isBlank c = false ∧ c ≠ '\\' ∧ c ≠ '\'' ∧ c ≠ '"' := by
  refine ⟨?_, ?_, ?_, ?_⟩
  · by_contra hblank
    simp only [isBlank, Bool.not_eq_false, Bool.or_eq_true, decide_eq_true_eq] at hblank
    rcases hblank with ((rfl | rfl) | rfl) | rfl <;> exact absurd h (by decide)
  all_goals
    rintro rfl
    exact absurd h (by decide)

/-- Characters that are safe go into the word. -/
theorem read_safe {text : List Char} (h : text.all isSafe = true) (hmode : l.mode = .word) :
    l.read text = { l with word := l.word ++ text } := by
  induction text generalizing l with
  | nil => simp
  | cons c text ih =>
    rw [List.all_cons, Bool.and_eq_true] at h
    obtain ⟨hblank, hescape, hsingle, hdouble⟩ := isSafe_plain h.1
    have hstep : l.step c = l.add [c] .word := by
      simp [step, hmode, hblank, hescape, hsingle, hdouble]
    rw [read_cons, hstep, ih h.2 rfl]
    simp [add, hmode]

/-- What is between single quotation marks goes into the word as it is. -/
theorem read_escaped (text : List Char) (hmode : l.mode = .single) :
    (l.read (escaped text ++ ['\''])) =
    { l with mode := .word, quoted := true, word := l.word ++ text } := by
  induction text generalizing l with
  | nil => simp [escaped, step, hmode]
  | cons c text ih =>
    have hcons : escaped (c :: text) =
        (if c = '\'' then ['\'', '"', '\'', '"', '\''] else [c]) ++ escaped text := rfl
    have hone : l.read (if c = '\'' then ['\'', '"', '\'', '"', '\''] else [c])
        = { l with quoted := true, word := l.word ++ [c] } := by
      split
      case isTrue hc =>
        subst hc
        simp [step, add, hmode, isBlank]
      case isFalse hc => simp [step, add, hmode, hc]
    rw [hcons, List.append_assoc, read_append, hone,
      ih (l := { l with quoted := true, word := l.word ++ [c] }) hmode]
    simp

/-- **A quoted word is read as the word.** -/
theorem read_quote (text : List Char) (words : List (List Char)) : ∃ quoted : Bool,
    ({ words := words } : Lexer).read (quote text) =
        { mode := .word, quoted := quoted, word := text, words := words } ∧
      (text ≠ [] ∨ quoted = true) := by
  rw [quote]
  split_ifs with hnil hsafe
  · exact ⟨true, by simp [step, isBlank, hnil], .inr rfl⟩
  · obtain ⟨c, rest, rfl⟩ := List.exists_cons_of_ne_nil hnil
    refine ⟨false, ?_, .inl hnil⟩
    rw [List.all_cons, Bool.and_eq_true] at hsafe
    obtain ⟨hblank, hescape, hsingle, hdouble⟩ := isSafe_plain hsafe.1
    have hstep :
        ({ words := words } : Lexer).step c = { mode := .word, word := [c], words := words } := by
      simp [step, hblank, hescape, hsingle, hdouble]
    rw [read_cons, hstep, read_safe hsafe.2 rfl]
    rfl
  · refine ⟨true, ?_, .inr rfl⟩
    have hstep : ({ words := words } : Lexer).step '\'' = { mode := .single, words := words } := by
      simp [step, isBlank]
    rw [List.cons_append, read_cons, hstep, read_escaped text rfl]
    rfl

end Lexer

/-- A word that was read, and a blank after it. -/
theorem ended_of_read {text : List Char} {words : List (List Char)} {quoted : Bool}
    (h : text ≠ [] ∨ quoted = true) :
    ({ mode := .word, quoted := quoted, word := text, words := words } : Lexer).ended = words ++
    [text] := by
  rw [Lexer.ended, if_pos h]

theorem finish_read_join (texts words : List (List Char)) :
    (({ words := words } : Lexer).read (join texts)).finish = .ok (words ++ texts) := by
  induction texts generalizing words with
  | nil => simp [join, Lexer.finish]
  | cons text texts ih =>
    obtain ⟨quoted, hread, hword⟩ := Lexer.read_quote text words
    cases texts with
    | nil =>
      have hjoin : join [text] = quote text := by simp [join]
      rw [hjoin, hread, Lexer.finish, ended_of_read hword]
    | cons text' texts =>
      have hjoin : join (text :: text' :: texts) = quote text ++ ' ' :: join (text' :: texts) := by
        simp [join, List.intercalate]
      have hblank :
        ({ mode := .word, quoted := quoted, word := text, words := words } : Lexer).step ' '
          = { words := words ++ [text] } := by
        rw [Lexer.step]
        simp [isBlank, ended_of_read hword]
      rw [hjoin, Lexer.read_append, hread, Lexer.read_cons, hblank, ih, List.append_assoc]
      rfl

/-- **What is joined is split again.** -/
theorem split_join (words : List (List Char)) : split (join words) = .ok words := by
  rw [split, finish_read_join, List.nil_append]

end Shlex

end Machinery
