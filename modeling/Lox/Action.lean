import Lox.Environment
import Lox.Fault

/-!
# Actions

An action is what a program does with its state. It ends with a result, or it stops, or it asks
for a call of a function and says how it goes on when the call has ended. Nothing here says what
a call does, so that an action needs no more of the machine than its own tree is deep.

* `State`, `Stop`, `Step`, `Action`;
* `blaming`, `within`, `counted`, `inProgram`: what happens around an action;
* the actions on names, objects and output, and `requestCall`.
-/

namespace Lox

/-- The readings of a clock, one after another. -/
def Clock := Nat → Float

namespace Clock

/-- A clock that shows one time for ever. -/
def still (time : Float) : Clock := fun _ => time

/-- What the clock shows when it is looked at next. -/
def reading (c : Clock) : Float := c 0

/-- The readings after the next one. -/
def rest (c : Clock) : Clock := fun n => c (n + 1)

/-- The clock after a call of a built-in function. Only `clock` looks at it. -/
def after (c : Clock) : Builtin → Clock
  | .clock => c.rest
  | _ => c

end Clock

/-! A time stands for a clock that shows it for ever. -/

instance : Coe Float Clock := ⟨.still⟩

instance (n : Nat) [OfNat Float n] : OfNat Clock n := ⟨.still (OfNat.ofNat n)⟩

/-- What a program can change: the environment, the fields of objects by number, the next
identity number, how many function bodies are running, what was printed, and the clock; and the
program that the running code is part of. -/
structure State where
  env : Environment
  objects : Array (Bindings Value)
  nextId : Nat
  depth : Nat
  output : String
  clock : Clock
  program : Program

/-- Why an action stops: an error of the program, or no fuel. -/
inductive Stop
  | error (error : RuntimeError)
  | outOfFuel
  deriving DecidableEq, Repr

/-- Blames an error on a span, unless it is blamed already. -/
def Stop.blame (span : Span) : Stop → Stop
  | error e => .error (e.blame span)
  | outOfFuel => .outOfFuel

/-- The result of a call. -/
abbrev Reply := Except Stop Value

/-- How far an action comes: it is done, it stops, or it asks for a call, and goes on from the
result of the call and the state after it. -/
inductive Step (α : Type) where
  | done (result : α) (state : State)
  | stop (reason : Stop) (state : State)
  | call (f : Function) (args : List Value) (state : State) (resume : Reply → State → Step α)

namespace Step

variable {α β γ : Type}

/-- Goes on with the result of a step. -/
def bind (x : Step α) (g : α → State → Step β) : Step β :=
  match x with
  | done a s => g a s
  | stop e s => stop e s
  | call f args s k => call f args s fun r s => (k r s).bind g

/-- Changes the reason and the state at the end of a step. -/
def adjust (reason : Stop → Stop) (after : State → State) : Step α → Step α
  | done a s => done a (after s)
  | stop e s => stop (reason e) (after s)
  | call f args s k => call f args s fun r s => (k r s).adjust reason after

/-- The state in which a step ends or asks for a call. -/
def state : Step α → State
  | done _ s | stop _ s | call _ _ s _ => s

/-- The step from a result of a call. -/
def ofReply (r : Reply) (s : State) : Step Value :=
  match r with
  | .ok v => done v s
  | .error e => stop e s

theorem bind_done (x : Step α) : x.bind done = x := by
  induction x with
  | done => rfl
  | stop => rfl
  | call f args s k ih => simp [bind, ih]

theorem bind_bind (x : Step α) (g : α → State → Step β) (h : β → State → Step γ) :
    (x.bind g).bind h = x.bind fun a s => (g a s).bind h := by
  induction x with
  | done => rfl
  | stop => rfl
  | call f args s k ih => simp [bind, ih]

end Step

/-- What a program does with its state. -/
def Action (α : Type) := State → Step α

namespace Action

variable {α β : Type}

/-- Does nothing and has a result. -/
@[always_inline, inline] protected def pure (a : α) : Action α := fun s => .done a s

/-- One action after the other. -/
@[always_inline, inline] protected def bind (x : Action α) (g : α → Action β) : Action β :=
  fun s =>
    match x s with
    | .done a s => g a s
    | .stop e s => .stop e s
    | .call f args s k => .call f args s fun r s => (k r s).bind g

instance : Monad Action where
  pure := Action.pure
  bind := Action.bind

theorem bind_apply (x : Action α) (g : α → Action β) (s : State) :
    (x >>= g) s = (x s).bind g := by
  show Action.bind x g s = _
  rw [Action.bind]
  cases x s <;> rfl

@[simp] theorem pure_apply (a : α) (s : State) : (pure a : Action α) s = .done a s := rfl

theorem bind_assoc {γ : Type} (x : Action α) (g : α → Action β) (h : β → Action γ) :
    x >>= g >>= h = x >>= fun a => g a >>= h := by
  funext s
  have gh : (fun a s => (g a >>= h) s) = fun a s => (g a s).bind h :=
    funext fun a => funext fun s => bind_apply (g a) h s
  calc (x >>= g >>= h) s
    _ = ((x >>= g) s).bind h := bind_apply (x >>= g) h s
    _ = ((x s).bind g).bind h := congrArg (·.bind h) (bind_apply x g s)
    _ = (x s).bind fun a s => (g a s).bind h := Step.bind_bind (x s) g h
    _ = (x s).bind fun a => g a >>= h := congrArg (x s).bind gh.symm
    _ = (x >>= fun a => g a >>= h) s := (bind_apply x _ s).symm

instance : LawfulMonad Action :=
  .mk' Action (fun x => funext fun s => (bind_apply x _ s).trans (Step.bind_done (x s)))
    (fun _ _ => rfl) bind_assoc

end Action

variable {α : Type}

/-! ### Stopping -/

/-- Stops. -/
def stopWith (reason : Stop) : Action α := fun s => .stop reason s

/-- Stops with a fault that is not blamed yet. -/
def fail (fault : Fault) : Action α := stopWith (.error ⟨fault, none⟩)

/-- The result of an operator. -/
def ofExcept : Except Fault Value → Action Value
  | .ok v => pure v
  | .error fault => fail fault

/-- Blames the errors of an action on a span. -/
def blaming (span : Span) (x : Action α) : Action α := fun s => (x s).adjust (·.blame span) id

/-! ### Scopes and calls -/

/-- Runs an action in another scope and goes back to the scope before, also when it stops. -/
def within (enter : Environment → Environment) (x : Action α) : Action α := fun s =>
  let scope := s.env.scope
  (x { s with env := enter s.env }).adjust id fun s => { s with env := s.env.enter scope }

/-- Runs an action as a function body, which counts as running until it ends. -/
def counted (x : Action α) : Action α := fun s =>
  (x { s with depth := s.depth + 1 }).adjust id fun s => { s with depth := s.depth - 1 }

/-- Runs an action as code of another program and goes back to the program before, also when it
stops. -/
def inProgram (program : Program) (x : Action α) : Action α := fun s =>
  let before := s.program
  (x { s with program }).adjust id fun s => { s with program := before }

/-- Asks for a call of a function, unless too many function bodies are running. -/
def requestCall (f : Function) (args : List Value) : Action Value := fun s =>
  if maxDepth ≤ s.depth then fail .stackOverflow s else .call f args s .ofReply

/-! ### Names -/

/-- The value of a name. -/
def readName (name : String) : Action Value := fun s =>
  match s.env.lookup name with
  | some v => .done v s
  | none => fail (.undefinedVariable name) s

/-- Gives a name a value in the innermost frame. -/
def defineName (name : String) (value : Value) : Action Unit := fun s =>
  .done () { s with env := s.env.define name value }

/-- Gives a name a value in the nearest frame that has it. -/
def assignName (name : String) (value : Value) : Action Unit := fun s =>
  match s.env.owner? s.env.scope name with
  | some i => .done () { s with env := s.env.write i name value }
  | none => fail (.undefinedVariable name) s

/-! ### Output -/

/-- Prints a line. -/
def printLine (text : String) : Action Unit := fun s =>
  .done () { s with output := s.output ++ text ++ "\n" }

/-! ### Functions, classes and objects -/

/-- A new identity number. -/
def newId : Action Nat := fun s => .done s.nextId { s with nextId := s.nextId + 1 }

/-- A new function over the current scope, as code of the current program. -/
def newFunction (name : Option String) (params : List String) (body : List Stmt) :
    Action Value := do
  let id ← newId
  fun s => .done (.function id ⟨name, params, body, s.env.scope, s.program⟩) s

/-- A new native function. -/
def newNative (f : Native) : Action Value := do
  return .native (← newId) f

/-- A new class. -/
def newClass (name : String) : Action Value := do
  return .cls (← newId) name

/-- A new object, without fields. -/
def newObject (className : String) : Action Value := fun s =>
  .done (.object s.objects.size className) { s with objects := s.objects.push ∅ }

/-- The number of an object. -/
def objectId : Value → Action Nat
  | .object id _ => pure id
  | v => fail (.notAnInstance v.type)

/-- The value of a field. -/
def readField (id : Nat) (name : String) : Action Value := fun s =>
  match (s.objects.getD id ∅).get? name with
  | some v => .done v s
  | none => fail (.undefinedProperty name) s

/-- Gives a field a value. -/
def writeField (id : Nat) (name : String) (value : Value) : Action Unit := fun s =>
  .done () { s with objects := s.objects.modify id (·.insert name value) }

end Lox
