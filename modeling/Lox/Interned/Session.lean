import Lox.Interned.Evaluation
import Lox.Session

/-!
# Sessions over interned names

A session reads a source with the name table that it has. The numbers of the names stand in the
trees that are run, and the table is kept for the sources after it, also when the source is no
program.

* `Interned.State.start`: the state with the built-in functions;
* `Interned.State.read`, `Interned.State.run`: one source;
* `Interned.State.Ends`: how a source ends, if it does;
* `Interned.State.Reaches`: the states that follow a state.
-/

namespace Lox.Interned

/-- How a source ended: what it printed, why it failed if it did, and the state after it. -/
structure Outcome where
  printed : String
  problem : Option Problem
  state : State

namespace State

/-- The state without any value. -/
def empty (clock : Clock) : State := ⟨.fresh, .fresh, #[], 0, 0, "", clock⟩

/-- Numbers the name of a native function, and gives it that function as its value. -/
def addNative (s : State) (f : Native) : State :=
  let (name, names) := s.names.intern f.name
  let value := Value.data (.native s.nextId { f with name := names.lookup name })
  { s with names, env := s.env.write globalFrame name value, nextId := s.nextId + 1 }

/-- The state in which the built-in functions are defined. -/
def start (clock : Clock) : State := builtins.foldl addNative (empty clock)

/-- Sets the clock that programs look at. -/
def setClock (s : State) (clock : Clock) : State := { s with clock }

/-- What the frames of the current scope bind. -/
def dump (s : State) : String := s.env.dump s.names

/-- Reads the statements of a source, which may add names to the name table. -/
def read (s : State) (source : String) : Except Problem (List Stmt) × State :=
  match lex source with
  | .error e => (.error (.lexing e), s)
  | .ok tokens =>
    let (program, names) := parse s.names tokens
    ((program.mapError .parsing).map fun p => internedAll names p.statements, { s with names })

/-- The outcome of a run that ended in a state. -/
def settle (problem : Option Problem) (s : State) : Outcome :=
  ⟨s.output, problem, { s with output := "" }⟩

/-- Runs the statements of a program. There is no outcome if the fuel does not suffice. -/
def runProgram (fuel : Nat) (s : State) (statements : List Stmt) : Option Outcome :=
  match (runStatements fuel statements { s with output := "" }).run fuel with
  | (.ok _, s) => some (settle none s)
  | (.error (.error e), s) => some (settle (some (.running e)) s)
  | (.error .outOfFuel, _) => none

/-- Runs a source. There is no outcome if the fuel does not suffice. -/
def run (fuel : Nat) (s : State) (source : String) : Option Outcome :=
  match s.read source with
  | (.error problem, s) => some ⟨"", some problem, s⟩
  | (.ok statements, s) => s.runProgram fuel statements

section Run

variable {fuel : Nat} {s : State} {source : String}

theorem run_of_read_eq_error {p : Problem} (h : (s.read source).1 = .error p) :
    s.run fuel source = some ⟨"", some p, (s.read source).2⟩ := by
  rw [run]
  split
  · next h' =>
    rw [h'] at h ⊢
    cases h
    rfl
  · next h' =>
    rw [h'] at h
    cases h

theorem run_of_read_eq_ok {statements : List Stmt} (h : (s.read source).1 = .ok statements) :
    s.run fuel source = (s.read source).2.runProgram fuel statements := by
  rw [run]
  split
  · next h' =>
    rw [h'] at h
    cases h
  · next h' =>
    rw [h'] at h ⊢
    cases h
    rfl

end Run

/-- With enough fuel, a source has the outcome `o`. -/
def Ends (s : State) (source : String) (o : Outcome) : Prop := ∃ fuel, s.run fuel source = some o

/-- The states after any number of sources, whether these fail or not. Between two sources the clock
may change. -/
inductive Reaches (origin : State) : State → Prop
  | refl : Reaches origin origin
  | setClock {s : State} (h : Reaches origin s) (clock : Clock) : Reaches origin (s.setClock clock)
  | run {s : State} {source : String} {o : Outcome} (h : Reaches origin s)
      (ends : s.Ends source o) : Reaches origin o.state

end State

end Lox.Interned
