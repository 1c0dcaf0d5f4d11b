import Lox.Value

/-!
# Runtime faults

* `Fault`: why a program cannot go on, with its message and its category;
* `RuntimeError`: a fault with the text that it is blamed on.
-/

namespace Lox

/-- The integer operations whose result may not fit into 64 bits. -/
inductive Arithmetic
  | addition
  | subtraction
  | multiplication
  | negation
  deriving DecidableEq, Repr

/-- The name of an operation. -/
def Arithmetic.name : Arithmetic → String
  | addition => "addition"
  | subtraction => "subtraction"
  | multiplication => "multiplication"
  | negation => "negation"

/-- The largest string, in bytes, that an operator may build. -/
def maxStringBytes : Nat := Nat.pow 2 30

/-- The largest number of function bodies that may run one within another. -/
def maxDepth : Nat := 10000

/-- Why a program cannot go on. -/
inductive Fault
  | operandMismatch (op : BinaryOp) (left right : ValueType)
  | operandUnfit (op : UnaryOp) (operand : ValueType)
  | divisionByZero
  | integerOverflow (operation : Arithmetic)
  | shiftOutOfRange (amount : Int64)
  | stringTooLong
  | undefinedVariable (name : String)
  | notAnInstance (type : ValueType)
  | undefinedProperty (name : String)
  | notCallable (type : ValueType)
  | arityMismatch (expected got : Nat)
  | notANumber (function : String) (type : ValueType)
  | stackOverflow
  | returnOutsideFunction
  | breakOutsideLoop
  deriving DecidableEq, Repr

/-- The categories of faults. -/
inductive FaultCategory
  | type
  | divisionByZero
  | name
  | runtime
  deriving DecidableEq, Repr

/-- The name of a category. -/
def FaultCategory.text : FaultCategory → String
  | type => "TypeError"
  | divisionByZero => "DivisionByZeroError"
  | name => "NameError"
  | runtime => "RuntimeError"

namespace Fault

/-- The category of a fault. -/
def category : Fault → FaultCategory
  | operandMismatch _ _ _ | operandUnfit _ _ | notAnInstance _ | undefinedProperty _
  | notCallable _ | arityMismatch _ _ | notANumber _ _ => .type
  | divisionByZero => .divisionByZero
  | undefinedVariable _ => .name
  | integerOverflow _ | shiftOutOfRange _ | stringTooLong | stackOverflow
  | returnOutsideFunction | breakOutsideLoop => .runtime

/-- The message of a fault. -/
def message : Fault → String
  | operandMismatch op l r =>
    s!"unsupported operand type(s) for {op.symbol}: {l.name} and {r.name}"
  | operandUnfit op t => s!"bad operand type for unary {op.symbol}: {t.name}"
  | divisionByZero => "division by zero"
  | integerOverflow operation => s!"integer overflow in {operation.name}"
  | shiftOutOfRange amount => s!"shift amount {amount.toInt} is outside 0..64"
  | stringTooLong => s!"string result exceeds {maxStringBytes} bytes"
  | undefinedVariable name => s!"undefined variable '{name}'"
  | notAnInstance t => s!"only instances have properties, not {t.name}"
  | undefinedProperty name => s!"undefined property '{name}'"
  | notCallable t => s!"{t.name} is not a function"
  | arityMismatch expected got => s!"expected {expected} arguments but got {got}"
  | notANumber function t => s!"{function}() expects a number, got {t.name}"
  | stackOverflow => s!"maximum call depth exceeded (limit: {maxDepth})"
  | returnOutsideFunction => "'return' outside of a function"
  | breakOutsideLoop => "'break' outside of a loop"

end Fault

/-- A fault, and the text that it is blamed on once that is known. -/
structure RuntimeError where
  fault : Fault
  span : Option Span
  deriving DecidableEq, Repr

namespace RuntimeError

/-- Blames an error on a span, unless it is blamed already. -/
def blame (e : RuntimeError) (span : Span) : RuntimeError := ⟨e.fault, e.span.or (some span)⟩

/-- The full text of an error. -/
def message (e : RuntimeError) : String := s!"{e.fault.category.text}: {e.fault.message}"

@[simp] theorem fault_blame (e : RuntimeError) (s : Span) : (e.blame s).fault = e.fault := rfl

/-- The first span that an error is blamed on stays. -/
@[simp] theorem blame_blame (e : RuntimeError) (s t : Span) :
    (e.blame s).blame t = e.blame s := by
  cases h : e.span <;> simp [blame, h]

end RuntimeError

end Lox
