import Lox.Fault

/-!
# Operators on values

* `UnaryOp.apply`, `BinaryOp.apply`;
* `Value.equal?`: the equality of the language, which is not defined for every pair of values.

The sorts of the operands decide first whether an operator applies. Integer results are exact or
a fault, `/` gives a float, and of an integer and a float the integer is widened.
-/

namespace Lox

/-- The least integer of 64 bits. -/
def minInt : Int := Int64.minValue.toInt

/-- The greatest integer of 64 bits. -/
def maxInt : Int := Int64.maxValue.toInt

/-- An integer result, if it fits into 64 bits. -/
def checked (operation : Arithmetic) (n : Int) : Except Fault Value :=
  if minInt ≤ n ∧ n ≤ maxInt then .ok (.int (.ofInt n)) else .error (.integerOverflow operation)

/-- The value of an operator before an operand. -/
def UnaryOp.apply (op : UnaryOp) (operand : Value) : Except Fault Value :=
  match op, operand with
  | .negate, .int n => checked .negation (-n.toInt)
  | .negate, .float x => .ok (.float (-x))
  | .not, .bool b => .ok (.bool !b)
  | .not, .int n => .ok (.bool (n == 0))
  | .not, .float x => .ok (.bool (x == 0))
  | .complement, .int n => .ok (.int (~~~n))
  | op, operand => .error (.operandUnfit op operand.type)

/-- Whether two values are equal: an integer and a float by number, values of one sort if they
are the same. Other pairs cannot be compared. -/
def Value.equal? (left right : Value) : Option Bool :=
  match left, right with
  | .int a, .float b => some (widen a == b)
  | .float a, .int b => some (a == widen b)
  | left, right => if left.type = right.type then some (left.same right) else none

/-- A shift of integers, whose amount has to be less than their width. -/
def shifted (shift : Int64 → Int64 → Int64) (a b : Int64) : Except Fault Value :=
  if 0 ≤ b.toInt ∧ b.toInt < 64 then .ok (.int (shift a b)) else .error (.shiftOutOfRange b)

/-- An operator on integers. -/
def BinaryOp.onInts (op : BinaryOp) (a b : Int64) : Except Fault Value :=
  match op with
  | add => checked .addition (a.toInt + b.toInt)
  | sub => checked .subtraction (a.toInt - b.toInt)
  | mul => checked .multiplication (a.toInt * b.toInt)
  | div => if b = 0 then .error .divisionByZero else .ok (.float (widen a / widen b))
  | eq => .ok (.bool (a == b))
  | notEq => .ok (.bool (a != b))
  | less => .ok (.bool (a < b))
  | lessEq => .ok (.bool (a ≤ b))
  | greater => .ok (.bool (b < a))
  | greaterEq => .ok (.bool (b ≤ a))
  | bitAnd => .ok (.int (a &&& b))
  | bitOr => .ok (.int (a ||| b))
  | bitXor => .ok (.int (a ^^^ b))
  | shiftLeft => shifted (· <<< ·) a b
  | shiftRight => shifted (· >>> ·) a b

/-- An operator on floats; there is none on single bits. -/
def BinaryOp.onFloats? (op : BinaryOp) (a b : Float) : Option (Except Fault Value) :=
  match op with
  | add => some (.ok (.float (a + b)))
  | sub => some (.ok (.float (a - b)))
  | mul => some (.ok (.float (a * b)))
  | div => some (if b == 0 then .error .divisionByZero else .ok (.float (a / b)))
  | eq => some (.ok (.bool (a == b)))
  | notEq => some (.ok (.bool (a != b)))
  | less => some (.ok (.bool (a < b)))
  | lessEq => some (.ok (.bool (a ≤ b)))
  | greater => some (.ok (.bool (b < a)))
  | greaterEq => some (.ok (.bool (b ≤ a)))
  | bitAnd | bitOr | bitXor | shiftLeft | shiftRight => none

/-- The text `s`, `n` times, after the text `t`. -/
def appendTimes (t s : String) : Nat → String
  | 0 => t
  | n + 1 => appendTimes (t ++ s) s n

/-- Two texts in a row, if that is not too long. -/
def concatenated (s t : String) : Except Fault Value :=
  if s.utf8ByteSize + t.utf8ByteSize ≤ maxStringBytes then .ok (.str (s ++ t))
  else .error .stringTooLong

/-- The product of two sizes, if it fits into 64 bits. -/
def checkedProduct (a b : Nat) : Option Nat := if a * b < UInt64.size then some (a * b) else none

/-- A text in a row `n` times, or none if `n` is negative, if that is not too long. -/
def repeated (s : String) (n : Int64) : Except Fault Value :=
  let count := n.toInt.toNat
  match checkedProduct s.utf8ByteSize count with
  | some size =>
    if size ≤ maxStringBytes then .ok (.str (if s.isEmpty then "" else appendTimes "" s count))
    else .error .stringTooLong
  | none => .error .stringTooLong

/-- The value of an operator between two operands. -/
def BinaryOp.apply (op : BinaryOp) (left right : Value) : Except Fault Value :=
  let mismatch := Except.error (.operandMismatch op left.type right.type)
  match op with
  | .eq => ((left.equal? right).map fun b => .ok (.bool b)).getD mismatch
  | .notEq => ((left.equal? right).map fun b => .ok (.bool !b)).getD mismatch
  | op =>
    match left, right with
    | .int a, .int b => op.onInts a b
    | .int a, .float b => (op.onFloats? (widen a) b).getD mismatch
    | .float a, .int b => (op.onFloats? a (widen b)).getD mismatch
    | .float a, .float b => (op.onFloats? a b).getD mismatch
    | .str s, .str t => if op = .add then concatenated s t else mismatch
    | .str s, .int n => if op = .mul then repeated s n else mismatch
    | _, _ => mismatch

end Lox
