import Lox.Diagnostic
import Lox.Fault
import Lox.Syntax.ParseError
import Lox.Token.Lexer

/-!
# Problems

A problem is why a source could not be run to its end: it has no tokens, it is no program, or the
program failed.

* `LexFault.code`, `ParseFault.code`, `Fault.code`;
* `Problem`, with `Problem.message`, `Problem.exitCode` and `Problem.diagnostic`.
-/

namespace Lox

/-- The code of a fault. -/
def LexFault.code : LexFault → Code
  | unterminatedString => .unterminatedString
  | unterminatedComment => .unterminatedComment
  | unexpectedCharacter _ => .unexpectedCharacter
  | integerTooLarge => .integerTooLarge

/-- What is said about the text of a fault. -/
def LexFault.label : LexFault → String
  | unterminatedString => "string starts here"
  | unterminatedComment => "comment starts here"
  | unexpectedCharacter _ => "not valid here"
  | integerTooLarge => "does not fit in 64 bits"

/-- The diagnostic of an error. -/
def LexError.diagnostic (e : LexError) : Diagnostic :=
  ⟨e.fault.code, e.fault.message, [⟨e.span, e.fault.label⟩], [s!"scan error on line {e.line}"]⟩

/-- The code of a fault. -/
def ParseFault.code : ParseFault → Code
  | expected _ => .unexpectedToken
  | invalidTarget => .invalidTarget
  | tooManyParameters => .tooManyParameters

/-- The diagnostic of an error. -/
def ParseError.diagnostic (e : ParseError) : Diagnostic :=
  let found :=
    match e.found with
    | some text => s!"found '{text}'"
    | none => "found end of input"
  ⟨e.fault.code, e.fault.message, [⟨e.span, found⟩], [s!"parse error on line {e.line}"]⟩

/-- The code of a fault. -/
def Fault.code : Fault → Code
  | operandMismatch _ _ _ | operandUnfit _ _ | notANumber _ _ => .typeMismatch
  | divisionByZero => .divisionByZero
  | integerOverflow _ => .integerOverflow
  | shiftOutOfRange _ => .shiftOutOfRange
  | stringTooLong => .stringTooLong
  | undefinedVariable _ => .undefinedVariable
  | notAnInstance _ => .notAnInstance
  | undefinedProperty _ => .undefinedProperty
  | notCallable _ => .notCallable
  | arityMismatch _ _ => .arityMismatch
  | stackOverflow => .stackOverflow
  | returnOutsideFunction => .returnOutsideFunction
  | breakOutsideLoop => .breakOutsideLoop

/-- What is said about the text that a fault is blamed on. -/
def Fault.label : Fault → String
  | operandMismatch _ l r => s!"operands are {l.name} and {r.name}"
  | operandUnfit _ t => s!"operand is {t.name}"
  | divisionByZero => "divisor is zero"
  | integerOverflow operation => s!"{operation.name} overflowed"
  | shiftOutOfRange _ => "shift amount must be in 0..64"
  | stringTooLong => "result would be too large"
  | undefinedVariable _ => "not found in any enclosing scope"
  | notAnInstance t => s!"this is {t.name}"
  | undefinedProperty _ => "no such field"
  | notCallable t => s!"{t.name} called here"
  | arityMismatch _ _ => "called here"
  | notANumber function _ => s!"in call to {function}()"
  | stackOverflow => "recursion too deep"
  | returnOutsideFunction => "not inside a function"
  | breakOutsideLoop => "not inside a loop"

/-- The diagnostic of an error: a label if it is blamed on a text, and its category as a note. -/
def RuntimeError.diagnostic (e : RuntimeError) : Diagnostic :=
  ⟨e.fault.code, e.fault.message, (e.span.map fun span => ⟨span, e.fault.label⟩).toList,
    [e.fault.category.text]⟩

/-- Why a source could not be run to its end. -/
inductive Problem
  | lexing (error : LexError)
  | parsing (error : ParseError)
  | running (error : RuntimeError)
  deriving DecidableEq, Repr

namespace Problem

/-- The full text of a problem. -/
def message : Problem → String
  | lexing e => e.message
  | parsing e => e.message
  | running e => e.message

/-- The exit code of a process that ends with a problem. -/
def exitCode : Problem → Nat
  | lexing _ => 65
  | parsing _ => 68
  | running e => if e.fault.category = .name then 70 else 69

/-- The diagnostic of a problem. -/
def diagnostic : Problem → Diagnostic
  | lexing e => e.diagnostic
  | parsing e => e.diagnostic
  | running e => e.diagnostic

end Problem

end Lox
