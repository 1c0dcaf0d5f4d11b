import Lox.Evaluation
import Lox.Interned.Action

/-!
# Evaluation of interned trees

* `Interned.callValue`: a call of a value with arguments;
* `Interned.eval`, `Interned.exec`: expressions and statements;
* `Interned.Function.apply`, `Interned.runCalls`: calls, and the calls that they ask for;
* `Interned.runStatements`: the statements of a program.

`fuel` bounds the turns that a loop takes, and the calls and returns within one call of an action.
-/

namespace Lox.Interned

/-- How a statement ends: it goes on, leaves a loop, or leaves a function with a result. -/
inductive Flow
  | next
  | leave
  | result (value : Value)

/-! ### Calls -/

/-- A call of a native function. -/
def callNative (f : Native) (args : List Value) : Action Value := fun s =>
  ofExcept (f.builtin.apply s.clock.reading (args.map Value.face))
    { s with clock := s.clock.after f.builtin }

/-- A call of a value. The number of arguments is checked first. -/
def callValue (callee : Value) (args : List Value) : Action Value :=
  match callee.face.arity? with
  | none => fail (.notCallable callee.face.type)
  | some arity =>
    if arity ≠ args.length then fail (.arityMismatch arity args.length)
    else
      match callee with
      | .function _ f => requestCall f args
      | .data (.native _ f) => callNative f args
      | .data (.cls _ name) => newObject name
      | v => fail (.notCallable v.face.type)

/-! ### Expressions -/

/-- The value of a literal. -/
def Literal.value (names : NameTable) : Literal → Lox.Value
  | nil => .nil
  | bool b => .bool b
  | int n => .int n
  | float x => .float x
  | str text => .str (names.lookup text)

mutual

/-- The value of an expression. -/
def eval : Expr → Action Value
  | .literal _ v => fun s => .done (.data (v.value s.names)) s
  | .group m e => blaming m.span (eval e)
  | .unary m op e => blaming m.span do ofExcept (op.apply (← eval e).face)
  | .binary m l op r => blaming m.span do
    let left ← eval l
    let right ← eval r
    ofExcept (op.apply left.face right.face)
  | .logical m l op r => blaming m.span do
    let left ← eval l
    if op.decides left.face then return left else eval r
  | .var m x => blaming m.span (readName x)
  | .assign m x e => blaming m.span do
    let value ← eval e
    assignName x value
    return value
  | .call m f es => blaming m.span do
    let callee ← eval f
    let args ← evalAll es
    callValue callee args
  | .lambda _ params body => newFunction none params body
  | .get m e x => blaming m.span do
    let id ← objectId (← eval e)
    readField id x
  | .set m e x v => blaming m.span do
    let id ← objectId (← eval e)
    let value ← eval v
    writeField id x value
    return value

/-- The values of expressions, from left to right. -/
def evalAll : List Expr → Action (List Value)
  | [] => return []
  | e :: es => do
    let v ← eval e
    let vs ← evalAll es
    return v :: vs

end

/-- The value of an expression that may be missing. -/
def evalOption : Option Expr → Action Value
  | none => return .data .nil
  | some e => eval e

/-! ### Statements -/

/-- At most `n` turns of a loop, for as long as the condition holds. -/
def repeatWhile (condition : Action Value) (body : Action Flow) : Nat → Action Flow
  | 0 => stopWith .outOfFuel
  | n + 1 => do
    if (← condition).face.truthy then
      match ← body with
      | .next => repeatWhile condition body n
      | .leave => return .next
      | .result v => return .result v
    else
      return .next

mutual

/-- How a statement ends, if its loops take less than `fuel` turns. -/
def exec (fuel : Nat) : Stmt → Action Flow
  | .expression _ e => do
    let _ ← eval e
    return .next
  | .print _ e => do
    printLine (← eval e).face.display
    return .next
  | .varDecl _ x e => do
    defineName x (← evalOption e)
    return .next
  | .block _ body => within .push (execAll fuel body)
  | .ifElse _ c t e => do
    if (← eval c).face.truthy then exec fuel t else execOption fuel e
  | .whileDo _ c b => repeatWhile (eval c) (exec fuel b) fuel
  | .funDecl _ x params body => do
    defineName x (← newFunction (some x) params body)
    return .next
  | .returns _ e => do
    return .result (← evalOption e)
  | .breaks _ e => do
    let _ ← evalOption e
    return .leave
  | .classDecl _ x => do
    defineName x (← newClass x)
    return .next

/-- How a statement that may be missing ends. -/
def execOption (fuel : Nat) : Option Stmt → Action Flow
  | none => return .next
  | some s => exec fuel s

/-- How statements end: as the first of them that does not go on. -/
def execAll (fuel : Nat) : List Stmt → Action Flow
  | [] => return .next
  | s :: rest => do
    match ← exec fuel s with
    | .next => execAll fuel rest
    | .leave => return .leave
    | .result v => return .result v

end

/-! ### Runs -/

/-- The scope of a function body: a new frame, with the parameters in it, inside the frames that
the function was made in. -/
def Function.enter (f : Function) (args : List Value) (env : Environment) : Environment :=
  (f.params.zip args).foldl (fun env (x, v) => env.define x v) (env.pushOn f.scope)

/-- The result of a function whose body ended. -/
def Flow.returned : Flow → Action Value
  | next => return .data .nil
  | result v => return v
  | leave => fail .breakOutsideLoop

/-- What a call of a function does. -/
def Function.apply (fuel : Nat) (f : Function) (args : List Value) : Action Value := do
  let flow ← counted (within (f.enter args) (execAll fuel f.body))
  flow.returned

/-- What is to be done after a call. -/
abbrev Resumption := Reply → State → Step Value

/-- Runs a step to its end, with the calls that it asks for, and then what is to be done after
it; at most `n` calls and returns. -/
def runCalls (fuel : Nat) : (n : Nat) → List Resumption → Step Value → Reply × State
  | 0, _, x => (.error .outOfFuel, x.state)
  | n + 1, stack, .call f args s k => runCalls fuel n (k :: stack) (f.apply fuel args s)
  | _ + 1, [], .done v s => (.ok v, s)
  | _ + 1, [], .stop e s => (.error e, s)
  | n + 1, k :: stack, .done v s => runCalls fuel n stack (k (.ok v) s)
  | n + 1, k :: stack, .stop e s => runCalls fuel n stack (k (.error e) s)

/-- Runs a step to its end, with the calls that it asks for. -/
def Step.run {α : Type} (fuel : Nat) : Step α → Except Stop α × State
  | .done a s => (.ok a, s)
  | .stop e s => (.error e, s)
  | .call f args s k =>
    match runCalls fuel fuel [] (f.apply fuel args s) with
    | (r, s) => (k r s).run fuel

/-- Runs statements one after the other. None of them may leave what is around it. -/
def runStatements (fuel : Nat) : List Stmt → Action Unit
  | [] => return ()
  | s :: rest => do
    match ← exec fuel s with
    | .next => runStatements fuel rest
    | .leave => stopWith (.error ⟨.breakOutsideLoop, some s.span⟩)
    | .result _ => stopWith (.error ⟨.returnOutsideFunction, some s.span⟩)

end Lox.Interned
