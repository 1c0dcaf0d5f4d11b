import Lox.NameTable
import Lox.Syntax
import Lox.Syntax.ParseError

/-!
# Parsing

The grammar, from a program down to its smallest expressions:

    declaration → "var" NAME ( "=" expression )? ";"
                | "class" NAME "{" "}"
                | "fun" NAME function
                | statement
    statement   → "print" expression ";"
                | "{" declaration* "}"
                | "if" "(" expression ")" declaration ( "else" declaration )?
                | "while" "(" expression ")" declaration
                | "return" expression? ";"
                | "break" expression? ";"
                | expression ";"
    function    → "(" ( NAME ( "," NAME )* )? ")" "{" declaration* "}"
    expression  → ( NAME | call "." NAME ) "=" expression | level
    level       → one of the levels of `Level.all`, each a chain of operands of the next
    unary       → ( "!" | "-" | "~" ) unary | call
    call        → primary ( "(" ( expression ( "," expression )* )? ")" | "." NAME )*
    primary     → literal | NAME | "(" expression ")" | "fun" function

* `Level`: the levels of binary operators, loosest first;
* `Parser`: a reader of tokens, with the basic readers `peek`, `advance`, `accept`, `expect`;
* a reader for each rule, over an `Entry`, the readers for the rules that contain themselves;
* `entry`: these readers, which may be entered again only after a token has been consumed;
* `parse`.

The first error ends the reading.
-/

namespace Lox

/-! ### Operators by level -/

/-- An operator between two operands. -/
inductive Operator
  | binary (op : BinaryOp)
  | logical (op : LogicalOp)
  deriving DecidableEq, Repr

/-- The node of an operator. -/
def Operator.node (op : Operator) (mark : Mark) (left right : Expr) : Expr :=
  match op with
  | binary op => .binary mark left op right
  | logical op => .logical mark left op right

/-- The levels of operators between two operands. -/
inductive Level
  | or
  | and
  | bitwise
  | equality
  | comparison
  | term
  | factor
  deriving DecidableEq, Repr

namespace Level

/-- The levels, loosest first. -/
def all : List Level := [or, and, bitwise, equality, comparison, term, factor]

/-- The operator of a level that a token of a kind stands for. -/
def operator? : Level → Kind → Option Operator
  | or, .orWord => some (.logical .or)
  | and, .andWord => some (.logical .and)
  | bitwise, .ampersand => some (.binary .bitAnd)
  | bitwise, .pipe => some (.binary .bitOr)
  | bitwise, .caret => some (.binary .bitXor)
  | bitwise, .shiftLeft => some (.binary .shiftLeft)
  | bitwise, .shiftRight => some (.binary .shiftRight)
  | equality, .equalEqual => some (.binary .eq)
  | equality, .bangEqual => some (.binary .notEq)
  | comparison, .greater => some (.binary .greater)
  | comparison, .greaterEqual => some (.binary .greaterEq)
  | comparison, .less => some (.binary .less)
  | comparison, .lessEqual => some (.binary .lessEq)
  | term, .plus => some (.binary .add)
  | term, .minus => some (.binary .sub)
  | factor, .star => some (.binary .mul)
  | factor, .slash => some (.binary .div)
  | _, _ => none

end Level

/-- The prefix operator that a token of a kind stands for. -/
def UnaryOp.ofKind? : Kind → Option UnaryOp
  | .bang => some .not
  | .minus => some .negate
  | .tilde => some .complement
  | _ => none

/-! ### Readers -/

/-- A place in a token list: the tokens ahead, the span of the token consumed last, and what has
been made so far. The targets of assignments are kept last first. -/
structure Cursor where
  rest : List Token
  last : Span
  exprCount : Nat
  stmtCount : Nat
  targets : List Expr
  names : NameTable

namespace Cursor

/-- The start of a token list. -/
def ofTokens (names : NameTable) (tokens : List Token) : Cursor :=
  ⟨tokens, (tokens.head?.map Token.span).getD (.point 0), 0, 0, [], names⟩

/-- The token ahead. -/
def current (c : Cursor) : Token := c.rest.headD (.endOfInput 1 c.last.stop)

/-- The kind of the token behind the one ahead. -/
def nextKind (c : Cursor) : Kind := (c.rest.tail.head?.map Token.kind).getD .endOfInput

end Cursor

/-- A reader of tokens. -/
abbrev Parser := EStateM ParseError Cursor

namespace Parser

variable {α : Type}

/-- The token ahead. -/
def peek : Parser Token := fun c => .ok c.current c

/-- The kind of the token ahead. -/
def peekKind : Parser Kind := fun c => .ok c.current.kind c

/-- The kind of the token behind the one ahead. -/
def peekNextKind : Parser Kind := fun c => .ok c.nextKind c

/-- Consumes the token ahead, unless it is the end marker. -/
def advance : Parser Token := fun c =>
  match c.rest with
  | [] => .ok c.current c
  | t :: rest => if t.isEnd then .ok t c else .ok t { c with rest, last := t.span }

/-- Stops with a fault that is blamed on a token. -/
def failAt (fault : ParseFault) (t : Token) : Parser α := throw (.ofToken fault t)

/-- Consumes the token ahead if it is of a kind, and says whether it was. -/
def accept (kind : Kind) : Parser Bool := do
  if (← peekKind) == kind then
    let _ ← advance
    return true
  else
    return false

/-- Consumes the token ahead, which has to be of a kind. -/
def expect (kind : Kind) (what : Expected) : Parser Token := do
  let t ← peek
  if t.kind == kind then advance else failAt (.expected what) t

/-- Adds a text to the name table. -/
def intern (text : String) : Parser Unit := fun c =>
  .ok () { c with names := c.names.insert text }

/-- Consumes an identifier and gives its text. -/
def identifier (what : Expected) : Parser String := do
  let t ← expect .identifier what
  intern t.lexeme
  return t.lexeme

/-- The span from `start` to the end of the token consumed last. -/
def spanFrom (start : Span) : Parser Span := fun c => .ok (start.merge c.last) c

/-- The mark of a new expression. -/
def newExpr (span : Span) : Parser Mark := fun c =>
  .ok ⟨c.exprCount, span⟩ { c with exprCount := c.exprCount + 1 }

/-- The mark of a new statement that starts at `start` and ends with the token consumed last. -/
def newStmt (start : Span) : Parser Mark := fun c =>
  .ok ⟨c.stmtCount, start.merge c.last⟩ { c with stmtCount := c.stmtCount + 1 }

/-- Repeats `step` from `a` until it gives nothing, at most `n` times. -/
def iterate (step : α → Parser (Option α)) : Nat → α → Parser α
  | 0, a => pure a
  | n + 1, a => do
    match ← step a with
    | none => return a
    | some b => iterate step n b

/-- The readers for the rules that contain themselves, and a bound on the number of tokens ahead.
A turn of a loop consumes a token, so that no loop takes more turns. -/
structure Entry where
  bound : Nat
  expression : Parser Expr
  unary : Parser Expr
  declaration : Parser Stmt

/-! ### Lists -/

/-- One or more items with commas between them. An item is told the items before it, last
first. -/
def commaList (g : Entry) (item : List α → Parser α) : Parser (List α) := do
  let first ← item []
  let items ← iterate (fun found => do
    if ← accept .comma then return some ((← item found) :: found) else return none) g.bound [first]
  return items.reverse

/-- Declarations up to a closing brace, which is consumed. -/
def blockBody (g : Entry) : Parser (List Stmt) := do
  let body ← iterate (fun found => do
    let kind ← peekKind
    if kind == .rightBrace || kind == .endOfInput then return none
    else return some ((← g.declaration) :: found)) g.bound []
  let _ ← expect .rightBrace .braceAfterBlock
  return body.reverse

/-- The next parameter name, after the names of `found`. -/
def parameter (found : List String) : Parser String := do
  if maxParameters ≤ found.length then failAt .tooManyParameters (← peek)
  else identifier .parameterName

/-- The parameters and the body of a function. -/
def functionRest (g : Entry) : Parser (List String × List Stmt) := do
  let _ ← expect .leftParen .parenBeforeParameters
  let params ← if (← peekKind) == .rightParen then pure [] else commaList g parameter
  let _ ← expect .rightParen .parenAfterParameters
  let _ ← expect .leftBrace .braceBeforeFunctionBody
  let body ← blockBody g
  return (params, body)

/-! ### Expressions -/

/-- The literal that a token writes, if it carries the value of its kind. -/
def literal? (t : Token) : Option Literal :=
  match t.kind, t.payload with
  | .trueWord, _ => some (.bool true)
  | .falseWord, _ => some (.bool false)
  | .nilWord, _ => some .nil
  | .integer, some (.int n) => some (.int n)
  | .float, some (.float x) => some (.float x)
  | .string, some (.str s) => some (.str s)
  | _, _ => none

/-- Adds the text of a string to the name table. -/
def internText : Literal → Parser Unit
  | .str s => intern s
  | _ => pure ()

/-- A literal, which starts with the token `t` ahead. -/
def literal (t : Token) (value : Literal) : Parser Expr := do
  internText value
  let _ ← advance
  return .literal (← newExpr t.span) value

/-- A literal, a name, an expression in parentheses or a function without a name. -/
def primary (g : Entry) : Parser Expr := do
  let t ← peek
  match t.kind with
  | .identifier =>
    let name ← identifier .expression
    return .var (← newExpr t.span) name
  | .leftParen =>
    let _ ← advance
    let inner ← g.expression
    let _ ← expect .rightParen .parenAfterExpression
    return .group (← newExpr (← spanFrom t.span)) inner
  | .funWord =>
    let _ ← advance
    let (params, body) ← functionRest g
    return .lambda (← newExpr (← spanFrom t.span)) params body
  | _ =>
    match literal? t with
    | some value => literal t value
    | none => failAt (.expected .expression) t

/-- The arguments of a call, up to the closing parenthesis, which is consumed. -/
def arguments (g : Entry) : Parser (List Expr) := do
  let args ← if (← peekKind) == .rightParen then pure [] else commaList g fun _ => g.expression
  let _ ← expect .rightParen .parenAfterArguments
  return args

/-- An application of `e` or a property of it, if one follows. -/
def suffix (g : Entry) (e : Expr) : Parser (Option Expr) := do
  if ← accept .leftParen then
    let args ← arguments g
    return some (.call (← newExpr (← spanFrom e.span)) e args)
  else if ← accept .dot then
    let name ← identifier .propertyName
    return some (.get (← newExpr (← spanFrom e.span)) e name)
  else
    return none

/-- A primary expression with its applications and properties. -/
def call (g : Entry) : Parser Expr := do
  iterate (suffix g) g.bound (← primary g)

/-- An expression after prefix operators. -/
def unary (g : Entry) : Parser Expr := do
  match UnaryOp.ofKind? (← peekKind) with
  | some op =>
    let t ← advance
    let operand ← g.unary
    return .unary (← newExpr (t.span.merge operand.span)) op operand
  | none => call g

/-- The node of `left` and a further operand, if an operator of the level follows. -/
def chainStep (level : Level) (operand : Parser Expr) (left : Expr) : Parser (Option Expr) := do
  match level.operator? (← peekKind) with
  | some op =>
    let _ ← advance
    let right ← operand
    return some (op.node (← newExpr (left.span.merge right.span)) left right)
  | none => return none

/-- A chain of operands for each of the levels, grouped to the left. -/
def chain (g : Entry) : List Level → Parser Expr
  | [] => unary g
  | level :: levels => do
    iterate (chainStep level (chain g levels)) g.bound (← chain g levels)

/-- Keeps a target that an assignment takes the place of. -/
def keepTarget (target : Expr) : Parser Unit := fun c =>
  .ok () { c with targets := target :: c.targets }

/-- The assignment of a value, which only a name or a property can be given. -/
def assign (equals : Token) (target value : Expr) : Parser Expr := do
  let span := target.span.merge value.span
  match target with
  | .var _ name =>
    keepTarget target
    return .assign (← newExpr span) name value
  | .get _ object name =>
    keepTarget target
    return .set (← newExpr span) object name value
  | _ => failAt .invalidTarget equals

/-- A chain, or an assignment to a name or a property. The value is read before the target is
judged. -/
def assignment (g : Entry) : Parser Expr := do
  let left ← chain g Level.all
  if (← peekKind) == .equal then
    let equals ← advance
    let value ← g.expression
    assign equals left value
  else
    return left

/-! ### Statements -/

/-- What follows `var`. -/
def varDecl (g : Entry) (start : Span) : Parser Stmt := do
  let name ← identifier .variableName
  let value ← if ← accept .equal then some <$> g.expression else pure none
  let _ ← expect .semicolon .semicolonAfterVariable
  return .varDecl (← newStmt start) name value

/-- What follows `fun` before a name. -/
def funDecl (g : Entry) (start : Span) : Parser Stmt := do
  let name ← identifier .functionName
  let (params, body) ← functionRest g
  return .funDecl (← newStmt start) name params body

/-- What follows `class`. -/
def classDecl (start : Span) : Parser Stmt := do
  let name ← identifier .className
  let _ ← expect .leftBrace .braceBeforeClassBody
  let _ ← expect .rightBrace .braceAfterClassBody
  return .classDecl (← newStmt start) name

/-- What follows `print`. -/
def print (g : Entry) (start : Span) : Parser Stmt := do
  let value ← g.expression
  let _ ← expect .semicolon .semicolonAfterPrint
  return .print (← newStmt start) value

/-- What follows an opening brace. -/
def block (g : Entry) (start : Span) : Parser Stmt := do
  let body ← blockBody g
  return .block (← newStmt start) body

/-- What follows `if`. -/
def ifElse (g : Entry) (start : Span) : Parser Stmt := do
  let _ ← expect .leftParen .parenAfterIf
  let condition ← g.expression
  let _ ← expect .rightParen .parenAfterIfCondition
  let thenBranch ← g.declaration
  let elseBranch ← if ← accept .elseWord then some <$> g.declaration else pure none
  return .ifElse (← newStmt start) condition thenBranch elseBranch

/-- What follows `while`. -/
def whileDo (g : Entry) (start : Span) : Parser Stmt := do
  let _ ← expect .leftParen .parenAfterWhile
  let condition ← g.expression
  let _ ← expect .rightParen .parenAfterWhileCondition
  let body ← g.declaration
  return .whileDo (← newStmt start) condition body

/-- An operand before a semicolon, which may be missing. -/
def operand? (g : Entry) : Parser (Option Expr) := do
  if (← peekKind) == .semicolon then return none else some <$> g.expression

/-- What follows `return`. -/
def returns (g : Entry) (start : Span) : Parser Stmt := do
  let value ← operand? g
  let _ ← expect .semicolon .semicolonAfterReturn
  return .returns (← newStmt start) value

/-- What follows `break`. -/
def breaks (g : Entry) (start : Span) : Parser Stmt := do
  let value ← operand? g
  let _ ← expect .semicolon .semicolonAfterBreak
  return .breaks (← newStmt start) value

/-- An expression as a statement. -/
def expression (g : Entry) (start : Span) : Parser Stmt := do
  let value ← assignment g
  let _ ← expect .semicolon .semicolonAfterExpression
  return .expression (← newStmt start) value

/-- The reader that a first word selects, for what follows the word. -/
def afterWord? (g : Entry) (kind next : Kind) : Option (Span → Parser Stmt) :=
  match kind with
  | .varWord => some (varDecl g)
  | .classWord => some classDecl
  | .funWord => if next == .identifier then some (funDecl g) else none
  | .printWord => some (print g)
  | .leftBrace => some (block g)
  | .ifWord => some (ifElse g)
  | .whileWord => some (whileDo g)
  | .returnWord => some (returns g)
  | .breakWord => some (breaks g)
  | _ => none

/-- A declaration or statement. A `fun` without a name starts an expression. -/
def declaration (g : Entry) : Parser Stmt := do
  let t ← peek
  match afterWord? g t.kind (← peekNextKind) with
  | some rest =>
    let _ ← advance
    rest t.span
  | none => expression g t.span

/-! ### Programs -/

mutual

/-- The reader of expressions that may be entered again `n` times, one within another. -/
def expressionAt : Nat → Parser Expr
  | 0 => do failAt (.expected .expression) (← peek)
  | n + 1 => assignment ⟨n, expressionAt n, unaryAt n, declarationAt n⟩

/-- The reader of operands of prefix operators that may be entered again `n` times. -/
def unaryAt : Nat → Parser Expr
  | 0 => do failAt (.expected .expression) (← peek)
  | n + 1 => unary ⟨n, expressionAt n, unaryAt n, declarationAt n⟩

/-- The reader of declarations that may be entered again `n` times. -/
def declarationAt : Nat → Parser Stmt
  | 0 => do failAt (.expected .expression) (← peek)
  | n + 1 => declaration ⟨n, expressionAt n, unaryAt n, declarationAt n⟩

end

/-- The readers that may be entered `n` times, one within another, with at most `n` tokens
ahead. -/
def entry (n : Nat) : Entry := ⟨n, expressionAt n, unaryAt n, declarationAt n⟩

/-- The declarations up to the end of input. A rule is entered again only after a token has been
consumed, so that the number of tokens bounds how often. -/
def program : Parser (List Stmt) := fun c =>
  let g := entry c.rest.length
  (do
    let statements ← iterate (fun found => do
      if (← peekKind) == .endOfInput then return none
      else return some ((← declaration g) :: found)) g.bound []
    return statements.reverse : Parser (List Stmt)) c

end Parser

/-- Reads a program from tokens, the last of which is the end marker. The name table grows also
when the reading fails. -/
def parse (names : NameTable) (tokens : List Token) : Except ParseError Program × NameTable :=
  match Parser.program (.ofTokens names tokens) with
  | .ok statements c => (.ok ⟨statements, c.exprCount, c.stmtCount, c.targets.reverse⟩, c.names)
  | .error e c => (.error e, c.names)

end Lox
