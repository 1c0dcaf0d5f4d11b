import Lox.Bindings
import Lox.Value

/-!
# Environments

An environment keeps every frame that was ever made and the scope in which names are looked up
now: a path of frames, innermost first. A block adds a frame to the current path, a call adds one
to the path that the function was made in. Paths share frames, so that a write through one path
is seen through every other.

* `Environment`, `Environment.fresh`;
* `lookup`, `define`, `defineGlobal`, `assign`: read and write names;
* `push`, `enter`: change the scope;
* `dump`: the text of the frames of the scope.
-/

namespace Lox

/-- Frames by number, and the current scope. -/
structure Environment where
  frames : Array (Bindings Value)
  scope : Scope

/-- The number of the frame that holds the built-in functions. -/
def globalFrame : Nat := 0

namespace Environment

/-- A frame for the top level inside the global frame, both without names. -/
def fresh : Environment := ⟨#[∅, ∅], [1, globalFrame]⟩

/-- A frame by its number. -/
def frame (env : Environment) (i : Nat) : Bindings Value := env.frames.getD i ∅

/-- Gives a name a value in one frame. -/
def write (env : Environment) (i : Nat) (name : String) (value : Value) : Environment :=
  { env with frames := env.frames.modify i (·.insert name value) }

/-- The nearest frame of a path that has a name. -/
def owner? (env : Environment) (scope : Scope) (name : String) : Option Nat :=
  scope.find? fun i => ((env.frame i).get? name).isSome

/-- The value of a name in the nearest frame of a path that has it. -/
def lookupIn (env : Environment) (scope : Scope) (name : String) : Option Value :=
  scope.findSome? fun i => (env.frame i).get? name

/-- The value of a name. -/
def lookup (env : Environment) (name : String) : Option Value := env.lookupIn env.scope name

/-- Gives a name a value in the innermost frame. -/
def define (env : Environment) (name : String) (value : Value) : Environment :=
  match env.scope with
  | [] => env
  | i :: _ => env.write i name value

/-- Gives a name a value in the global frame. -/
def defineGlobal (env : Environment) (name : String) (value : Value) : Environment :=
  env.write globalFrame name value

/-- Gives a name a value in the nearest frame that has it, if there is one. -/
def assign (env : Environment) (name : String) (value : Value) : Option Environment :=
  (env.owner? env.scope name).map fun i => env.write i name value

/-- Makes a path the current one. -/
def enter (env : Environment) (scope : Scope) : Environment := { env with scope }

/-- Makes a new frame inside a path, and makes that the current path. -/
def pushOn (env : Environment) (scope : Scope) : Environment :=
  let i := env.frames.size
  ⟨env.frames.push ∅, i :: scope⟩

/-- Makes a new frame inside the current path. -/
def push (env : Environment) : Environment := env.pushOn env.scope

/-- The text of a frame. -/
def renderFrame (b : Bindings Value) : String :=
  ", ".intercalate (b.entries.map fun (name, value) => s!"{name} = {value.display}")

/-- The texts of the frames of a path, of which the first has the number `index`. -/
def dumpFrom (env : Environment) (index : Nat) : Scope → String
  | [] => ""
  | i :: outer =>
    let sign := if i = globalFrame then " (global)" else ""
    s!"frame {index}{sign}: {renderFrame (env.frame i)}\n" ++ dumpFrom env (index + 1) outer

/-- The frames of the current scope, one a line, innermost first. -/
def dump (env : Environment) : String := env.dumpFrom 0 env.scope

theorem lookupIn_eq_bind_owner? (env : Environment) (scope : Scope) (name : String) :
    env.lookupIn scope name = (env.owner? scope name).bind fun i => (env.frame i).get? name := by
  induction scope with
  | nil => rfl
  | cons i outer ih =>
    rw [lookupIn, owner?, List.findSome?_cons, List.find?_cons]
    cases h : (env.frame i).get? name with
    | none => simpa [h, lookupIn, owner?] using ih
    | some v => simp [h]

/-- Assignment fails exactly for names that have no value. -/
theorem assign_eq_none_iff (env : Environment) (name : String) (value : Value) :
    env.assign name value = none ↔ env.lookup name = none := by
  rw [assign, Option.map_eq_none_iff, lookup, lookupIn_eq_bind_owner?]
  cases h : env.owner? env.scope name with
  | none => simp
  | some i =>
    have hi := List.find?_some h
    simpa [Option.isSome_iff_ne_none] using hi

end Environment

end Lox
