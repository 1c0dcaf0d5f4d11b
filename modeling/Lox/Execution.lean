import Lox.Evaluation

/-!
# Execution

Actions ask for calls of functions. Execution answers them: it runs the body of the function and
keeps what is to be done after it on a list, so that calls may be nested to any depth.

* `Function.apply`: the action of a call;
* `runCalls`: an action and the calls that it asks for, and the calls that those ask for;
* `Action.run`: an action with all its calls;
* `Expr.Ends`, `Stmt.Ends`: how an expression and a statement end, if they do;
* `runStatements`, `traceStatements`: the statements of a program.

`fuel` bounds the turns that a loop takes, and the calls and returns within one call of an
action.
-/

namespace Lox

/-! ### Calls -/

/-- The scope of a function body: a new frame, with the parameters in it, inside the frames that
the function was made in. -/
def Function.enter (f : Function) (args : List Value) (env : Environment) : Environment :=
  (f.params.zip args).foldl (fun env (x, v) => env.define x v) (env.pushOn f.scope)

/-- The result of a function whose body ended. -/
def Flow.returned : Flow → Action Value
  | next => return .nil
  | result v => return v
  | leave => fail .breakOutsideLoop

/-- What a call of a function does. -/
def Function.apply (fuel : Nat) (f : Function) (args : List Value) : Action Value := do
  let flow ← counted (within (f.enter args) (inProgram f.program (execAll fuel f.body)))
  flow.returned

/-- What is to be done after a call. -/
abbrev Resumption := Reply → State → Step Value

/-- Runs a step to its end, with the calls that it asks for, and then what is to be done after
it; at most `n` calls and returns. -/
def runCalls (fuel : Nat) : (n : Nat) → List Resumption → Step Value → Reply × State
  | 0, _, x => (.error .outOfFuel, x.state)
  | n + 1, stack, .call f args s k => runCalls fuel n (k :: stack) (f.apply fuel args s)
  | _ + 1, [], .done v s => (.ok v, s)
  | _ + 1, [], .stop e s => (.error e, s)
  | n + 1, k :: stack, .done v s => runCalls fuel n stack (k (.ok v) s)
  | n + 1, k :: stack, .stop e s => runCalls fuel n stack (k (.error e) s)

/-- Runs a step to its end, with the calls that it asks for. -/
def Step.run {α : Type} (fuel : Nat) : Step α → Except Stop α × State
  | .done a s => (.ok a, s)
  | .stop e s => (.error e, s)
  | .call f args s k =>
    match runCalls fuel fuel [] (f.apply fuel args s) with
    | (r, s) => (k r s).run fuel

/-- Runs an action from a state. -/
def Action.run {α : Type} (fuel : Nat) (x : Action α) (s : State) : Except Stop α × State :=
  (x s).run fuel

/-- With enough fuel, an expression ends with the result `r` in the state `t`. -/
def Expr.Ends (e : Expr) (s : State) (r : Reply) (t : State) : Prop :=
  r ≠ .error .outOfFuel ∧ ∃ fuel, (eval e).run fuel s = (r, t)

/-- With enough fuel, a statement ends with the result `r` in the state `t`. -/
def Stmt.Ends (stmt : Stmt) (s : State) (r : Except Stop Flow) (t : State) : Prop :=
  r ≠ .error .outOfFuel ∧ ∃ fuel, (exec fuel stmt).run fuel s = (r, t)

/-! ### Programs -/

/-- Runs statements one after the other. None of them may leave what is around it. -/
def runStatements (fuel : Nat) : List Stmt → Action Unit
  | [] => return ()
  | s :: rest => do
    match ← exec fuel s with
    | .next => runStatements fuel rest
    | .leave => stopWith (.error ⟨.breakOutsideLoop, some s.span⟩)
    | .result _ => stopWith (.error ⟨.returnOutsideFunction, some s.span⟩)

/-- How each of several statements ends, where no end keeps the ones after it from running. -/
def traceStatements (fuel : Nat) : List Stmt → State → List (Except Stop Flow) × State
  | [], s => ([], s)
  | stmt :: rest, s =>
    let (flow, s) := (exec fuel stmt).run fuel s
    let (flows, s) := traceStatements fuel rest s
    (flow :: flows, s)

end Lox
