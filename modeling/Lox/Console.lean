import Lox.Diagnostic.Terminal
import Lox.Session
import Lox.Text.Blank

/-!
# The console

* `FileText`: what reading a file gives;
* `runFile`: runs a file;
* `respond`: the response of a conversation to one line;
* `nextLine`, `splitLines`: the lines of the input;
* `inputLines`, `converse`: a whole conversation, from the bytes of the input.

Errors are written without colours.
-/

namespace Lox

/-- What a process writes, and its exit code. -/
structure Console where
  stdout : String
  stderr : String
  exitCode : Nat
  deriving DecidableEq, Repr

/-- What reading a file gives. -/
inductive FileText
  | text (source : String)
  | missing
  | directory
  | notText
  | unreadable (reason : String)
  deriving DecidableEq, Repr

/-- The report of a problem with a source. -/
def Problem.report (p : Problem) (colors : Bool) (source : String) : String :=
  p.diagnostic.report colors (some source)

namespace Console

/-- What is written when there are too many arguments. -/
def usage : Console := ⟨"", "Usage: plox [script]\n", 64⟩

/-- What is written when a file cannot be read. -/
def unreadable (name reason : String) : Console :=
  ⟨"", s!"error: could not read {name}: {reason}\n", 66⟩

/-- What an outcome writes for a source. -/
def ofOutcome (colors : Bool) (source : String) (o : Outcome) : Console :=
  match o.problem with
  | none => ⟨o.printed, "", 0⟩
  | some p => ⟨o.printed, p.report colors source, p.exitCode⟩

/-- Runs the text of a file. -/
def runFile (fuel : Nat) (clock : Clock) (colors : Bool) (name : String) (file : FileText) :
    Option Console :=
  match file with
  | .text source => ((Session.start clock).run fuel source).map (ofOutcome colors source)
  | .missing => some (unreadable name "No such file or directory (os error 2)")
  | .directory => some (unreadable name "Is a directory (os error 21)")
  | .notText => some (unreadable name "stream did not contain valid UTF-8")
  | .unreadable reason => some (unreadable name reason)

/-! ### Conversations -/

/-- What is written before each line is read. -/
def prompt : String := ">>> "

/-- The response to a line: what is written, and the session for the next line, if there is to be
one. -/
structure Response where
  stdout : String
  stderr : String
  next : Option Session

/-- Responds to a line: a blank line, a command, or a source. -/
def respond (fuel : Nat) (colors : Bool) (s : Session) (line : String) : Option Response :=
  match trimBlank line with
  | "" => some ⟨"", "", some s⟩
  | ":quit" => some ⟨"", "", none⟩
  | ":env" => some ⟨s.env.dump, "", some s⟩
  | _ =>
    (s.run fuel line).map fun o =>
      let c := ofOutcome colors line o
      ⟨c.stdout, c.stderr, some o.session⟩

/-- The line that bytes before a newline make: a carriage return before it is no part of it. -/
def dropReturn (line : List UInt8) : List UInt8 :=
  if line.getLast? = some 13 then line.dropLast else line

/-- The lines of an input. What follows the last newline is a line if it is not empty. -/
def splitLines (line : List UInt8) : List UInt8 → List (List UInt8)
  | [] => if line.isEmpty then [] else [line.reverse]
  | b :: bs =>
    if b = 10 then dropReturn line.reverse :: splitLines [] bs else splitLines (b :: line) bs

/-- The first line of an input, if there is one, and what follows it. -/
def nextLine (input : List UInt8) : Option (List UInt8 × List UInt8) :=
  match input.dropWhile (· != 10) with
  | [] => if input.isEmpty then none else some (input, [])
  | _ :: rest => some (dropReturn (input.takeWhile (· != 10)), rest)

/-- The text of bytes, if they are UTF-8. -/
def decodeLine (line : List UInt8) : Option String := String.fromUTF8? ⟨line.toArray⟩

/-- The lines of an input up to the first that is no text. -/
def inputLines (input : List UInt8) : List String :=
  ((splitLines [] input).map decodeLine).takeWhile Option.isSome |>.filterMap id

/-- A conversation over lines, after `written`. The end of input ends the line of the prompt. -/
def converseFrom (fuel : Nat) (written : Console) (s : Session) : List String → Option Console
  | [] => some { written with stdout := written.stdout ++ prompt ++ "\n" }
  | line :: rest =>
    match respond fuel false s line with
    | none => none
    | some r =>
      let stdout := written.stdout ++ prompt ++ r.stdout
      let written := { written with stdout, stderr := written.stderr ++ r.stderr }
      match r.next with
      | none => some written
      | some s => converseFrom fuel written s rest

/-- A conversation, from its start. -/
def converse (fuel : Nat) (clock : Clock) (input : List UInt8) : Option Console :=
  converseFrom fuel ⟨"", "", 0⟩ (.start clock) (inputLines input)

/-- What a process with arguments writes. -/
def run (fuel : Nat) (clock : Clock) (args : List String) (read : String → FileText)
    (input : List UInt8) : Option Console :=
  match args with
  | [] => converse fuel clock input
  | [name] => runFile fuel clock false name (read name)
  | _ => some usage

end Console

end Lox
