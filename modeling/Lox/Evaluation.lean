import Lox.Action
import Lox.Value.Operators

/-!
# Evaluation

Evaluation follows the trees.

* `callValue`: a call of a value with arguments;
* `eval`, `exec`: expressions and statements.

An error is blamed on the smallest expression around it, and what an action changed before the
error stays changed, but for the current scope.
-/

namespace Lox

/-- How a statement ends: it goes on, leaves a loop, or leaves a function with a result. -/
inductive Flow
  | next
  | leave
  | result (value : Value)

/-! ### Calls -/

/-- The result of a built-in function at a time. -/
def Builtin.apply (builtin : Builtin) (now : Float) (args : List Value) : Except Fault Value :=
  match builtin, args with
  | clock, _ => .ok (.float now)
  | noop, _ => .ok .nil
  | sqrt, [x] =>
    match x.number? with
    | some n => .ok (.float n.sqrt)
    | none => .error (.notANumber "sqrt" x.type)
  | sqrt, args => .error (.arityMismatch 1 args.length)

/-- A call of a native function, whatever number of arguments it declares. -/
def callNative (f : Native) (args : List Value) : Action Value := fun s =>
  ofExcept (f.builtin.apply s.clock.reading args) { s with clock := s.clock.after f.builtin }

/-- A call of a value. The number of arguments is checked first. -/
def callValue (callee : Value) (args : List Value) : Action Value :=
  match callee.arity? with
  | none => fail (.notCallable callee.type)
  | some arity =>
    if arity ≠ args.length then fail (.arityMismatch arity args.length)
    else
      match callee with
      | .function _ f => requestCall f args
      | .native _ f => callNative f args
      | .cls _ name => newObject name
      | v => fail (.notCallable v.type)

/-! ### Expressions -/

/-- The value of a literal. -/
def Literal.value : Literal → Value
  | nil => .nil
  | bool b => .bool b
  | int n => .int n
  | float x => .float x
  | str s => .str s

/-- Whether the left operand is the result of a logical operator. -/
def LogicalOp.decides (op : LogicalOp) (left : Value) : Bool :=
  match op with
  | or => left.truthy
  | and => !left.truthy

mutual

/-- The value of an expression. -/
def eval : Expr → Action Value
  | .literal _ v => pure v.value
  | .group m e => blaming m.span (eval e)
  | .unary m op e => blaming m.span do ofExcept (op.apply (← eval e))
  | .binary m l op r => blaming m.span do
    let left ← eval l
    let right ← eval r
    ofExcept (op.apply left right)
  | .logical m l op r => blaming m.span do
    let left ← eval l
    if op.decides left then return left else eval r
  | .var m x => blaming m.span (readName x)
  | .assign m x e => blaming m.span do
    let value ← eval e
    assignName x value
    return value
  | .call m f es => blaming m.span do
    let callee ← eval f
    let args ← evalAll es
    callValue callee args
  | .lambda _ params body => newFunction none params body
  | .get m e x => blaming m.span do
    let id ← objectId (← eval e)
    readField id x
  | .set m e x v => blaming m.span do
    let id ← objectId (← eval e)
    let value ← eval v
    writeField id x value
    return value

/-- The values of expressions, from left to right. -/
def evalAll : List Expr → Action (List Value)
  | [] => return []
  | e :: es => do
    let v ← eval e
    let vs ← evalAll es
    return v :: vs

end

/-- The value of an expression that may be missing. -/
def evalOption : Option Expr → Action Value
  | none => return .nil
  | some e => eval e

/-! ### Statements -/

/-- At most `n` turns of a loop, for as long as the condition holds. -/
def repeatWhile (condition : Action Value) (body : Action Flow) : Nat → Action Flow
  | 0 => stopWith .outOfFuel
  | n + 1 => do
    if (← condition).truthy then
      match ← body with
      | .next => repeatWhile condition body n
      | .leave => return .next
      | .result v => return .result v
    else
      return .next

mutual

/-- How a statement ends, if its loops take less than `fuel` turns. -/
def exec (fuel : Nat) : Stmt → Action Flow
  | .expression _ e => do
    let _ ← eval e
    return .next
  | .print _ e => do
    printLine (← eval e).display
    return .next
  | .varDecl _ x e => do
    defineName x (← evalOption e)
    return .next
  | .block _ body => within .push (execAll fuel body)
  | .ifElse _ c t e => do
    if (← eval c).truthy then exec fuel t else execOption fuel e
  | .whileDo _ c b => repeatWhile (eval c) (exec fuel b) fuel
  | .funDecl _ x params body => do
    defineName x (← newFunction (some x) params body)
    return .next
  | .returns _ e => do
    return .result (← evalOption e)
  | .breaks _ e => do
    let _ ← evalOption e
    return .leave
  | .classDecl _ x => do
    defineName x (← newClass x)
    return .next

/-- How a statement that may be missing ends. -/
def execOption (fuel : Nat) : Option Stmt → Action Flow
  | none => return .next
  | some s => exec fuel s

/-- How statements end: as the first of them that does not go on. -/
def execAll (fuel : Nat) : List Stmt → Action Flow
  | [] => return .next
  | s :: rest => do
    match ← exec fuel s with
    | .next => execAll fuel rest
    | .leave => return .leave
    | .result v => return .result v

end

end Lox
