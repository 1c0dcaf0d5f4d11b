import Lox.Execution
import Lox.Problem
import Lox.Syntax.Parser

/-!
# Sessions

A session runs one source after the other. What a source defines stays defined for the sources
after it, also when the source fails half way.

* `State.start`: the state with the built-in functions;
* `Session`, `Session.start`, `Session.read`, `Session.run`;
* `Session.Ends`: how a source ends, if it does;
* `Session.Reaches`: the sessions that follow a session.
-/

namespace Lox

/-- The functions that every program finds. -/
def builtins : List Native := [⟨"clock", 0, .clock⟩, ⟨"sqrt", 1, .sqrt⟩]

namespace State

/-- The state without any name. -/
def empty (clock : Clock) : State := ⟨.fresh, #[], 0, 0, "", clock, .empty⟩

/-- Gives a name a value in the global frame. -/
def defineGlobal (s : State) (name : String) (value : Value) : State :=
  { s with env := s.env.defineGlobal name value }

/-- Gives the name of a native function that function as its value. -/
def addNative (s : State) (f : Native) : State :=
  { s with nextId := s.nextId + 1 }.defineGlobal f.name (.native s.nextId f)

/-- The state in which the built-in functions are defined. -/
def start (clock : Clock) : State := builtins.foldl addNative (empty clock)

end State

/-- What is known after the sources so far: the name table, and the state. -/
structure Session where
  names : NameTable
  state : State

/-- How a source ended: what it printed, why it failed if it did, and the session after it. -/
structure Outcome where
  printed : String
  problem : Option Problem
  session : Session

namespace Session

/-- The session before the first source. The names of the built-in functions are in the table. -/
def start (clock : Clock) : Session :=
  ⟨builtins.foldl (fun names f => names.insert f.name) .fresh, .start clock⟩

/-- The environment of a session. -/
def env (s : Session) : Environment := s.state.env

/-- Sets the clock that programs look at. -/
def setClock (s : Session) (clock : Clock) : Session := { s with state := { s.state with clock } }

/-- The outcome of a source that could not be started. -/
def reject (s : Session) (problem : Problem) : Outcome := ⟨"", some problem, s⟩

/-- The outcome of a run that ended in a state. -/
def settle (names : NameTable) (problem : Option Problem) (s : State) : Outcome :=
  ⟨s.output, problem, ⟨names, { s with output := "" }⟩⟩

/-- Runs a program. There is no outcome if the fuel does not suffice. -/
def runProgram (fuel : Nat) (s : Session) (program : Program) : Option Outcome :=
  let state := { s.state with output := "", program }
  match (runStatements fuel program.statements).run fuel state with
  | (.ok _, state) => some (settle s.names none state)
  | (.error (.error e), state) => some (settle s.names (some (.running e)) state)
  | (.error .outOfFuel, _) => none

/-- Reads the program of a source, which may add names to the name table. -/
def read (s : Session) (source : String) : Except Problem Program × Session :=
  match lex source with
  | .error e => (.error (.lexing e), s)
  | .ok tokens =>
    let (program, names) := parse s.names tokens
    (program.mapError .parsing, { s with names })

/-- Runs a source. There is no outcome if the fuel does not suffice. -/
def run (fuel : Nat) (s : Session) (source : String) : Option Outcome :=
  match s.read source with
  | (.error problem, s) => some (s.reject problem)
  | (.ok program, s) => s.runProgram fuel program

theorem read_of_lex {s : Session} {source : String} {tokens : List Token}
    (h : lex source = .ok tokens) :
    s.read source =
      ((parse s.names tokens).1.mapError .parsing,
        { s with names := (parse s.names tokens).2 }) := by
  rw [read, h]

/-- A source can be read if its tokens can be parsed. -/
theorem read_eq_ok_iff {s : Session} {source : String} {program : Program} :
    (s.read source).1 = .ok program ↔
      ∃ tokens, lex source = .ok tokens ∧ (parse s.names tokens).1 = .ok program := by
  constructor
  · intro h
    cases hlex : lex source with
    | error e =>
      rw [read, hlex] at h
      cases h
    | ok tokens =>
      refine ⟨tokens, rfl, ?_⟩
      rw [read_of_lex hlex] at h
      cases hparse : (parse s.names tokens).1 with
      | error e =>
        rw [hparse] at h
        cases h
      | ok program' =>
        rw [hparse] at h
        cases h
        rfl
  · rintro ⟨tokens, hlex, hparse⟩
    rw [read_of_lex hlex, hparse]
    rfl

/-- Reading a source changes the name table only. -/
@[simp] theorem state_read (s : Session) (source : String) : (s.read source).2.state = s.state := by
  rw [read]
  split <;> rfl

/-- The problem of a run that came to an end. -/
def problem? : Except Stop Unit → Option Problem
  | .error (.error e) => some (.running e)
  | _ => none

/-- A program has an outcome if and only if its statements come to an end. -/
theorem runProgram_eq_some_iff {fuel : Nat} {s : Session} {program : Program} {o : Outcome} :
    s.runProgram fuel program = some o ↔
      ∃ r t, (runStatements fuel program.statements).run fuel
          { s.state with output := "", program } = (r, t) ∧
        r ≠ .error .outOfFuel ∧ o = settle s.names (problem? r) t := by
  rw [runProgram]
  split
  · next t h => simp [h, problem?, eq_comm, and_assoc]
  · next e t h => simp [h, problem?, eq_comm, and_assoc]
  · next t h => simp [h]

section Run

variable {fuel : Nat} {s : Session} {source : String}

theorem run_of_read_eq_error {p : Problem} (h : (s.read source).1 = .error p) :
    s.run fuel source = some ((s.read source).2.reject p) := by
  rw [run]
  split
  · next h' =>
    rw [h'] at h ⊢
    cases h
    rfl
  · next h' =>
    rw [h'] at h
    cases h

theorem run_of_read_eq_ok {program : Program} (h : (s.read source).1 = .ok program) :
    s.run fuel source = (s.read source).2.runProgram fuel program := by
  rw [run]
  split
  · next h' =>
    rw [h'] at h
    cases h
  · next h' =>
    rw [h'] at h ⊢
    cases h
    rfl

/-- A source is either not a program, or its program is run. -/
theorem run_eq_some_iff {o : Outcome} :
    s.run fuel source = some o ↔
      (∃ p, (s.read source).1 = .error p ∧ o = (s.read source).2.reject p) ∨
      (∃ program, (s.read source).1 = .ok program ∧
        (s.read source).2.runProgram fuel program = some o) := by
  cases h : (s.read source).1 with
  | error p => simp [run_of_read_eq_error h, eq_comm]
  | ok program => simp [run_of_read_eq_ok h]

end Run

/-- With enough fuel, a source has the outcome `o`. -/
def Ends (s : Session) (source : String) (o : Outcome) : Prop :=
  ∃ fuel, s.run fuel source = some o

/-- The sessions after any number of sources, whether these fail or not. Between two sources the
clock may change. -/
inductive Reaches (origin : Session) : Session → Prop
  | refl : Reaches origin origin
  | setClock {s : Session} (h : Reaches origin s) (clock : Clock) :
    Reaches origin (s.setClock clock)
  | run {s : Session} {source : String} {o : Outcome} (h : Reaches origin s)
      (ends : s.Ends source o) : Reaches origin o.session

end Session

end Lox
