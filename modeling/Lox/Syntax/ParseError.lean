import Lox.Token

/-!
# Parse errors

* `Expected`: what the grammar asks for at a place;
* `ParseFault`: why a token list is no program;
* `ParseError`: a fault with the token that it is blamed on.
-/

namespace Lox

/-- What the grammar asks for at a place. -/
inductive Expected
  | expression
  | variableName
  | functionName
  | className
  | parameterName
  | propertyName
  | parenAfterExpression
  | parenAfterArguments
  | parenBeforeParameters
  | parenAfterParameters
  | parenAfterIf
  | parenAfterIfCondition
  | parenAfterWhile
  | parenAfterWhileCondition
  | braceBeforeFunctionBody
  | braceBeforeClassBody
  | braceAfterClassBody
  | braceAfterBlock
  | semicolonAfterVariable
  | semicolonAfterPrint
  | semicolonAfterReturn
  | semicolonAfterBreak
  | semicolonAfterExpression
  deriving DecidableEq, Repr

/-- The words for what is expected. -/
def Expected.words : Expected → String
  | expression => "expression"
  | variableName => "variable name"
  | functionName => "function name"
  | className => "class name"
  | parameterName => "parameter name"
  | propertyName => "property name after '.'"
  | parenAfterExpression => "')' after expression"
  | parenAfterArguments => "')' after arguments"
  | parenBeforeParameters => "'(' before parameters"
  | parenAfterParameters => "')' after parameters"
  | parenAfterIf => "'(' after 'if'"
  | parenAfterIfCondition => "')' after if condition"
  | parenAfterWhile => "'(' after 'while'"
  | parenAfterWhileCondition => "')' after condition"
  | braceBeforeFunctionBody => "'\x7b' before function body"
  | braceBeforeClassBody => "'\x7b' before class body"
  | braceAfterClassBody => "'\x7d' after class body"
  | braceAfterBlock => "'\x7d' after block"
  | semicolonAfterVariable => "';' after variable declaration"
  | semicolonAfterPrint => "';' after value"
  | semicolonAfterReturn => "';' after return value"
  | semicolonAfterBreak => "';' after 'break'"
  | semicolonAfterExpression => "';' after expression"

/-- The largest number of parameters of a function. -/
def maxParameters : Nat := 100

/-- Why a token list is no program. -/
inductive ParseFault
  | expected (what : Expected)
  | invalidTarget
  | tooManyParameters
  deriving DecidableEq, Repr

/-- The message of a fault. -/
def ParseFault.message : ParseFault → String
  | expected what => s!"expected {what.words}"
  | invalidTarget => "invalid assignment target"
  | tooManyParameters => s!"can't have more than {maxParameters} parameters"

/-- A fault with the place, the line and the text of the token that it is blamed on; the end
marker has no text. -/
structure ParseError where
  fault : ParseFault
  span : Span
  line : Nat
  found : Option String
  deriving DecidableEq, Repr

namespace ParseError

/-- A fault that is blamed on a token. -/
def ofToken (fault : ParseFault) (t : Token) : ParseError :=
  ⟨fault, t.span, t.line, if t.isEnd then none else some t.lexeme⟩

/-- The place of an error, in words. -/
def location (e : ParseError) : String :=
  match e.found with
  | some text => s!"at '{text}'"
  | none => "at end"

/-- The full text of an error. -/
def message (e : ParseError) : String :=
  s!"[line {e.line}] Error {e.location}: {e.fault.message}"

end ParseError

end Lox
