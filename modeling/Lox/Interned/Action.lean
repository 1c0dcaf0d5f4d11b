import Std.Data.HashMap.Basic
import Lox.Action
import Lox.Interned.Syntax

/-!
# Actions on interned names

Frames and objects keep values by the numbers of names in hash maps. Texts are looked up in the name
table of the state where a program shows them: for a literal, for the name of a new function or
class, and for an error.

* `Interned.Function`, `Interned.Value`, and `Value.face`, what operators and messages see of a
  value;
* `Interned.Environment`, `Interned.State`, `Interned.Step`, `Interned.Action`;
* the actions, each as for names that are texts.
-/

namespace Lox.Interned

/-! ### Values -/

/-- A function written in a program. Its name is a text, and its parameters and its body are
interned. -/
structure Function where
  name : Option String
  params : List Name
  body : List Stmt
  scope : Scope

/-- Values. Those that are no functions of a program have nothing that is interned. -/
inductive Value
  | data (value : Lox.Value)
  | function (id : Nat) (function : Function)

/-- What operators and messages see of a value: of a function, its identity number, its name and how
many parameters it has. -/
def Value.face : Value → Lox.Value
  | data v => v
  | function id f => .function id ⟨f.name, f.params.map fun _ => "", [], [], .empty⟩

/-! ### Environments -/

/-- Values of names by their numbers, in no order. -/
abbrev Bindings := Std.HashMap Name Value

/-- Frames by number, and the current scope. -/
structure Environment where
  frames : Array Bindings
  scope : Scope

namespace Environment

/-- A frame for the top level inside the global frame, both without names. -/
def fresh : Environment := ⟨#[∅, ∅], [1, globalFrame]⟩

/-- A frame by its number. -/
def frame (env : Environment) (i : Nat) : Bindings := env.frames.getD i ∅

/-- Gives a name a value in one frame. -/
def write (env : Environment) (i : Nat) (name : Name) (value : Value) : Environment :=
  { env with frames := env.frames.modify i (·.insert name value) }

/-- The nearest frame of a path that has a name. -/
def owner? (env : Environment) (scope : Scope) (name : Name) : Option Nat :=
  scope.find? fun i => (env.frame i)[name]?.isSome

/-- The value of a name in the nearest frame of the scope that has it. -/
def lookup (env : Environment) (name : Name) : Option Value :=
  env.scope.findSome? fun i => (env.frame i)[name]?

/-- Gives a name a value in the innermost frame. -/
def define (env : Environment) (name : Name) (value : Value) : Environment :=
  match env.scope with
  | [] => env
  | i :: _ => env.write i name value

/-- Makes a path the current one. -/
def enter (env : Environment) (scope : Scope) : Environment := { env with scope }

/-- Makes a new frame inside a path, and makes that the current path. -/
def pushOn (env : Environment) (scope : Scope) : Environment :=
  let i := env.frames.size
  ⟨env.frames.push ∅, i :: scope⟩

/-- Makes a new frame inside the current path. -/
def push (env : Environment) : Environment := env.pushOn env.scope

/-- The text of a frame: its names by their texts, in the order of these. -/
def renderFrame (names : NameTable) (b : Bindings) : String :=
  let entries := b.toList.map fun e => (names.lookup e.1, e.2.face.display)
  let sorted := entries.mergeSort fun a c => a.1 ≤ c.1
  ", ".intercalate (sorted.map fun e => s!"{e.1} = {e.2}")

/-- The texts of the frames of a path, of which the first has the number `index`. -/
def dumpFrom (names : NameTable) (env : Environment) (index : Nat) : Scope → String
  | [] => ""
  | i :: outer =>
    let sign := if i = globalFrame then " (global)" else ""
    s!"frame {index}{sign}: {renderFrame names (env.frame i)}\n" ++
      dumpFrom names env (index + 1) outer

/-- The frames of the current scope, one a line, innermost first. -/
def dump (names : NameTable) (env : Environment) : String := dumpFrom names env 0 env.scope

end Environment

/-! ### States and steps -/

/-- What a program can change, and the name table that its numbers belong to. -/
structure State where
  names : NameTable
  env : Environment
  objects : Array Bindings
  nextId : Nat
  depth : Nat
  output : String
  clock : Clock

/-- The result of a call. -/
abbrev Reply := Except Stop Value

/-- How far an action comes. -/
inductive Step (α : Type) where
  | done (result : α) (state : State)
  | stop (reason : Stop) (state : State)
  | call (f : Function) (args : List Value) (state : State) (resume : Reply → State → Step α)

namespace Step

variable {α β : Type}

/-- Goes on with the result of a step. -/
def bind (x : Step α) (g : α → State → Step β) : Step β :=
  match x with
  | done a s => g a s
  | stop e s => stop e s
  | call f args s k => call f args s fun r s => (k r s).bind g

/-- Changes the reason and the state at the end of a step. -/
def adjust (reason : Stop → Stop) (after : State → State) : Step α → Step α
  | done a s => done a (after s)
  | stop e s => stop (reason e) (after s)
  | call f args s k => call f args s fun r s => (k r s).adjust reason after

/-- The state in which a step ends or asks for a call. -/
def state : Step α → State
  | done _ s | stop _ s | call _ _ s _ => s

/-- The step from a result of a call. -/
def ofReply (r : Reply) (s : State) : Step Value :=
  match r with
  | .ok v => done v s
  | .error e => stop e s

end Step

/-- What a program does with its state. -/
def Action (α : Type) := State → Step α

instance : Monad Action where
  pure a := fun s => .done a s
  bind x g := fun s => (x s).bind g

variable {α : Type}

/-! ### Stopping -/

/-- Stops. -/
def stopWith (reason : Stop) : Action α := fun s => .stop reason s

/-- Stops with a fault that is not blamed yet. -/
def fail (fault : Fault) : Action α := stopWith (.error ⟨fault, none⟩)

/-- The result of an operator. -/
def ofExcept : Except Fault Lox.Value → Action Value
  | .ok v => pure (.data v)
  | .error fault => fail fault

/-- Blames the errors of an action on a span. -/
def blaming (span : Span) (x : Action α) : Action α := fun s => (x s).adjust (·.blame span) id

/-! ### Scopes and calls -/

/-- Runs an action in another scope and goes back to the scope before, also when it stops. -/
def within (enter : Environment → Environment) (x : Action α) : Action α := fun s =>
  let scope := s.env.scope
  (x { s with env := enter s.env }).adjust id fun s => { s with env := s.env.enter scope }

/-- Runs an action as a function body, which counts as running until it ends. -/
def counted (x : Action α) : Action α := fun s =>
  (x { s with depth := s.depth + 1 }).adjust id fun s => { s with depth := s.depth - 1 }

/-- Asks for a call of a function, unless too many function bodies are running. -/
def requestCall (f : Function) (args : List Value) : Action Value := fun s =>
  if maxDepth ≤ s.depth then fail .stackOverflow s else .call f args s .ofReply

/-! ### Names -/

/-- The text of a name. -/
def textOf (name : Name) : Action String := fun s => .done (s.names.lookup name) s

/-- The value of a name. -/
def readName (name : Name) : Action Value := fun s =>
  match s.env.lookup name with
  | some v => .done v s
  | none => fail (.undefinedVariable (s.names.lookup name)) s

/-- Gives a name a value in the innermost frame. -/
def defineName (name : Name) (value : Value) : Action Unit := fun s =>
  .done () { s with env := s.env.define name value }

/-- Gives a name a value in the nearest frame that has it. -/
def assignName (name : Name) (value : Value) : Action Unit := fun s =>
  match s.env.owner? s.env.scope name with
  | some i => .done () { s with env := s.env.write i name value }
  | none => fail (.undefinedVariable (s.names.lookup name)) s

/-! ### Output -/

/-- Prints a line. -/
def printLine (text : String) : Action Unit := fun s =>
  .done () { s with output := s.output ++ text ++ "\n" }

/-! ### Functions, classes and objects -/

/-- A new identity number. -/
def newId : Action Nat := fun s => .done s.nextId { s with nextId := s.nextId + 1 }

/-- A new function over the current scope. -/
def newFunction (name : Option Name) (params : List Name) (body : List Stmt) : Action Value := do
  let id ← newId
  fun s => .done (.function id ⟨name.map s.names.lookup, params, body, s.env.scope⟩) s

/-- A new class. -/
def newClass (name : Name) : Action Value := do
  let id ← newId
  return .data (.cls id (← textOf name))

/-- A new object, without fields. -/
def newObject (className : String) : Action Value := fun s =>
  .done (.data (.object s.objects.size className)) { s with objects := s.objects.push ∅ }

/-- The number of an object. -/
def objectId : Value → Action Nat
  | .data (.object id _) => pure id
  | v => fail (.notAnInstance v.face.type)

/-- The value of a field. -/
def readField (id : Nat) (name : Name) : Action Value := fun s =>
  match (s.objects.getD id ∅)[name]? with
  | some v => .done v s
  | none => fail (.undefinedProperty (s.names.lookup name)) s

/-- Gives a field a value. -/
def writeField (id : Nat) (name : Name) (value : Value) : Action Unit := fun s =>
  .done () { s with objects := s.objects.modify id (·.insert name value) }

end Lox.Interned
