import Lox.Text.Span

/-!
# Syntax trees

* `UnaryOp`, `BinaryOp`, `LogicalOp`, each with `symbol`, its text in a source;
* `Literal`, `Mark`;
* `Expr` and `Stmt`, the expressions and statements, which contain each other;
* `Program`: the statements of one source, with the number of nodes that were made for it.
-/

namespace Lox

/-- The operators with one operand. -/
inductive UnaryOp
  | negate
  | not
  | complement
  deriving DecidableEq, Repr

/-- The text of an operator. -/
def UnaryOp.symbol : UnaryOp → String
  | negate => "-"
  | not => "!"
  | complement => "~"

/-- The operators with two operands, both of which are evaluated. -/
inductive BinaryOp
  | add
  | sub
  | mul
  | div
  | eq
  | notEq
  | less
  | lessEq
  | greater
  | greaterEq
  | bitAnd
  | bitOr
  | bitXor
  | shiftLeft
  | shiftRight
  deriving DecidableEq, Repr

/-- The text of an operator. -/
def BinaryOp.symbol : BinaryOp → String
  | add => "+"
  | sub => "-"
  | mul => "*"
  | div => "/"
  | eq => "=="
  | notEq => "!="
  | less => "<"
  | lessEq => "<="
  | greater => ">"
  | greaterEq => ">="
  | bitAnd => "&"
  | bitOr => "|"
  | bitXor => "^"
  | shiftLeft => "<<"
  | shiftRight => ">>"

/-- The operators whose right operand is evaluated only if the left one leaves the result
open. -/
inductive LogicalOp
  | and
  | or
  deriving DecidableEq, Repr

/-- The text of an operator. -/
def LogicalOp.symbol : LogicalOp → String
  | and => "and"
  | or => "or"

/-- A value written in a source. -/
inductive Literal
  | nil
  | bool (value : Bool)
  | int (value : Int64)
  | float (value : Float)
  | str (value : String)
  deriving DecidableEq

/-- What a node of a tree carries: its number, in the order in which the nodes of its sort were
made, and the text that it spans. -/
structure Mark where
  number : Nat
  span : Span
  deriving DecidableEq, Repr

mutual

/-- Expressions. -/
inductive Expr
  | literal (mark : Mark) (value : Literal)
  | group (mark : Mark) (inner : Expr)
  | unary (mark : Mark) (op : UnaryOp) (operand : Expr)
  | binary (mark : Mark) (left : Expr) (op : BinaryOp) (right : Expr)
  | logical (mark : Mark) (left : Expr) (op : LogicalOp) (right : Expr)
  | var (mark : Mark) (name : String)
  | assign (mark : Mark) (name : String) (value : Expr)
  | call (mark : Mark) (callee : Expr) (args : List Expr)
  | lambda (mark : Mark) (params : List String) (body : List Stmt)
  | get (mark : Mark) (object : Expr) (name : String)
  | set (mark : Mark) (object : Expr) (name : String) (value : Expr)

/-- Statements. The operand of a `breaks` is evaluated and its value dropped. -/
inductive Stmt
  | expression (mark : Mark) (value : Expr)
  | print (mark : Mark) (value : Expr)
  | varDecl (mark : Mark) (name : String) (value : Option Expr)
  | block (mark : Mark) (body : List Stmt)
  | ifElse (mark : Mark) (condition : Expr) (thenBranch : Stmt) (elseBranch : Option Stmt)
  | whileDo (mark : Mark) (condition : Expr) (body : Stmt)
  | funDecl (mark : Mark) (name : String) (params : List String) (body : List Stmt)
  | returns (mark : Mark) (value : Option Expr)
  | breaks (mark : Mark) (value : Option Expr)
  | classDecl (mark : Mark) (name : String)

end

/-- The mark of an expression. -/
def Expr.mark : Expr → Mark
  | literal m _ | group m _ | unary m _ _ | binary m _ _ _ | logical m _ _ _ | var m _
  | assign m _ _ | call m _ _ | lambda m _ _ | get m _ _ | set m _ _ _ => m

/-- The text that an expression spans. -/
def Expr.span (e : Expr) : Span := e.mark.span

/-- The mark of a statement. -/
def Stmt.mark : Stmt → Mark
  | expression m _ | print m _ | varDecl m _ _ | block m _ | ifElse m _ _ _ | whileDo m _ _
  | funDecl m _ _ _ | returns m _ | breaks m _ | classDecl m _ => m

/-- The text that a statement spans. -/
def Stmt.span (s : Stmt) : Span := s.mark.span

instance : Inhabited Expr := ⟨.literal ⟨0, .point 0⟩ .nil⟩

instance : Inhabited Stmt := ⟨.classDecl ⟨0, .point 0⟩ ""⟩

/-- The statements of one source, how many expressions and statements were made while it was read,
and those of the expressions that assignments took the place of: their left sides, in the order of
the assignments. -/
structure Program where
  statements : List Stmt
  exprCount : Nat
  stmtCount : Nat
  targets : List Expr

/-- The program without statements. -/
def Program.empty : Program := ⟨[], 0, 0, []⟩

end Lox
