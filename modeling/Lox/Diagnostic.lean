import Lox.Text.Span

/-!
# Diagnostics

* `Phase`, `Code`: the codes of errors, by the phase that finds them;
* `Label`, `Diagnostic`: an error as it is reported;
* `Diagnostic.display`: its text without a source.
-/

namespace Lox

/-- The phases of running a program. -/
inductive Phase
  | lexing
  | parsing
  | running
  deriving DecidableEq, Repr

/-- What an error is. -/
inductive Code
  | unterminatedString
  | unexpectedCharacter
  | unterminatedComment
  | integerTooLarge
  | unexpectedToken
  | invalidTarget
  | tooManyParameters
  | typeMismatch
  | divisionByZero
  | undefinedVariable
  | notCallable
  | arityMismatch
  | returnOutsideFunction
  | breakOutsideLoop
  | notAnInstance
  | undefinedProperty
  | integerOverflow
  | shiftOutOfRange
  | stackOverflow
  | stringTooLong
  deriving DecidableEq, Repr

namespace Code

/-- The text of a code. -/
def text : Code → String
  | unterminatedString => "E0001"
  | unexpectedCharacter => "E0002"
  | unterminatedComment => "E0003"
  | integerTooLarge => "E0004"
  | unexpectedToken => "E1001"
  | invalidTarget => "E1002"
  | tooManyParameters => "E1003"
  | typeMismatch => "E6001"
  | divisionByZero => "E6002"
  | undefinedVariable => "E6003"
  | notCallable => "E6004"
  | arityMismatch => "E6005"
  | returnOutsideFunction => "E6006"
  | breakOutsideLoop => "E6007"
  | notAnInstance => "E6008"
  | undefinedProperty => "E6009"
  | integerOverflow => "E6010"
  | shiftOutOfRange => "E6011"
  | stackOverflow => "E6012"
  | stringTooLong => "E6013"

/-- The message of a diagnostic that has no message of its own. -/
def description : Code → String
  | unterminatedString => "unterminated string literal"
  | unexpectedCharacter => "unexpected character"
  | unterminatedComment => "unterminated block comment"
  | integerTooLarge => "integer literal too large"
  | unexpectedToken => "unexpected token"
  | invalidTarget => "invalid assignment target"
  | tooManyParameters => "too many parameters"
  | typeMismatch => "type mismatch"
  | divisionByZero => "division by zero"
  | undefinedVariable => "undefined variable"
  | notCallable => "value is not callable"
  | arityMismatch => "wrong number of arguments"
  | returnOutsideFunction => "return outside of a function"
  | breakOutsideLoop => "break outside of a loop"
  | notAnInstance => "only instances have properties"
  | undefinedProperty => "undefined property"
  | integerOverflow => "integer overflow"
  | shiftOutOfRange => "shift amount out of range"
  | stackOverflow => "maximum call depth exceeded"
  | stringTooLong => "string too long"

/-- The phase that finds an error. -/
def phase : Code → Phase
  | unterminatedString | unexpectedCharacter | unterminatedComment | integerTooLarge => .lexing
  | unexpectedToken | invalidTarget | tooManyParameters => .parsing
  | typeMismatch | divisionByZero | undefinedVariable | notCallable | arityMismatch
  | returnOutsideFunction | breakOutsideLoop | notAnInstance | undefinedProperty
  | integerOverflow | shiftOutOfRange | stackOverflow | stringTooLong => .running

/-- Every code, in the order of the texts. -/
def all : List Code :=
  [unterminatedString, unexpectedCharacter, unterminatedComment, integerTooLarge,
    unexpectedToken, invalidTarget, tooManyParameters, typeMismatch, divisionByZero,
    undefinedVariable, notCallable, arityMismatch, returnOutsideFunction, breakOutsideLoop,
    notAnInstance, undefinedProperty, integerOverflow, shiftOutOfRange, stackOverflow,
    stringTooLong]

/-- The code of a text. -/
def ofText? (s : String) : Option Code := all.find? (·.text == s)

end Code

/-- A place in a source, with what is to be said about it. -/
structure Label where
  span : Span
  message : String
  deriving DecidableEq, Repr

/-- An error as it is reported: a code, a message, labelled places and further notes. -/
structure Diagnostic where
  code : Code
  message : String
  labels : List Label
  notes : List String
  deriving DecidableEq, Repr

/-- The text of a diagnostic without a source. -/
def Diagnostic.display (d : Diagnostic) : String :=
  s!"error [{d.code.text}]: {d.message}" ++
    String.join (d.labels.map fun l => s!"\n  --> {l.span.render}: {l.message}") ++
    String.join (d.notes.map fun n => s!"\n  = note: {n}")

end Lox
