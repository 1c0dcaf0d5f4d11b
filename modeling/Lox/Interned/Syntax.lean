import Lox.NameTable
import Lox.Syntax

/-!
# Interned trees

Once a source has been read, all names and texts in its trees have numbers in the name table. In
interned trees these numbers stand for them.

* `Interned.Literal`, `Interned.Expr`, `Interned.Stmt`: the trees;
* `Expr.interned`, `Stmt.interned`: trees with the numbers of a table.
-/

namespace Lox

namespace Interned

/-- A value written in a source. -/
inductive Literal
  | nil
  | bool (value : Bool)
  | int (value : Int64)
  | float (value : Float)
  | str (text : Name)

mutual

/-- Expressions. -/
inductive Expr
  | literal (mark : Mark) (value : Literal)
  | group (mark : Mark) (inner : Expr)
  | unary (mark : Mark) (op : UnaryOp) (operand : Expr)
  | binary (mark : Mark) (left : Expr) (op : BinaryOp) (right : Expr)
  | logical (mark : Mark) (left : Expr) (op : LogicalOp) (right : Expr)
  | var (mark : Mark) (name : Name)
  | assign (mark : Mark) (name : Name) (value : Expr)
  | call (mark : Mark) (callee : Expr) (args : List Expr)
  | lambda (mark : Mark) (params : List Name) (body : List Stmt)
  | get (mark : Mark) (object : Expr) (name : Name)
  | set (mark : Mark) (object : Expr) (name : Name) (value : Expr)

/-- Statements. -/
inductive Stmt
  | expression (mark : Mark) (value : Expr)
  | print (mark : Mark) (value : Expr)
  | varDecl (mark : Mark) (name : Name) (value : Option Expr)
  | block (mark : Mark) (body : List Stmt)
  | ifElse (mark : Mark) (condition : Expr) (thenBranch : Stmt) (elseBranch : Option Stmt)
  | whileDo (mark : Mark) (condition : Expr) (body : Stmt)
  | funDecl (mark : Mark) (name : Name) (params : List Name) (body : List Stmt)
  | returns (mark : Mark) (value : Option Expr)
  | breaks (mark : Mark) (value : Option Expr)
  | classDecl (mark : Mark) (name : Name)

end

/-- The text that a statement spans. -/
def Stmt.span : Stmt → Span
  | expression m _ | print m _ | varDecl m _ _ | block m _ | ifElse m _ _ _ | whileDo m _ _
  | funDecl m _ _ _ | returns m _ | breaks m _ | classDecl m _ => m.span

end Interned

variable (t : NameTable)

/-- The number of the text stands for it. -/
def Literal.interned : Literal → Interned.Literal
  | nil => .nil
  | bool b => .bool b
  | int n => .int n
  | float x => .float x
  | str s => .str (t.number s)

mutual

/-- An expression with the numbers of a table. -/
def Expr.interned : Expr → Interned.Expr
  | .literal m v => .literal m (v.interned t)
  | .group m e => .group m e.interned
  | .unary m op e => .unary m op e.interned
  | .binary m l op r => .binary m l.interned op r.interned
  | .logical m l op r => .logical m l.interned op r.interned
  | .var m x => .var m (t.number x)
  | .assign m x e => .assign m (t.number x) e.interned
  | .call m f args => .call m f.interned (internedEach args)
  | .lambda m params body => .lambda m (params.map t.number) (internedAll body)
  | .get m e x => .get m e.interned (t.number x)
  | .set m e x v => .set m e.interned (t.number x) v.interned

/-- Expressions with the numbers of a table. -/
def internedEach : List Expr → List Interned.Expr
  | [] => []
  | e :: es => e.interned :: internedEach es

/-- An expression that may be missing, with the numbers of a table. -/
def internedOption : Option Expr → Option Interned.Expr
  | none => none
  | some e => some e.interned

/-- A statement with the numbers of a table. -/
def Stmt.interned : Stmt → Interned.Stmt
  | .expression m e => .expression m e.interned
  | .print m e => .print m e.interned
  | .varDecl m x e => .varDecl m (t.number x) (internedOption e)
  | .block m body => .block m (internedAll body)
  | .ifElse m c s e => .ifElse m c.interned s.interned (internedElse e)
  | .whileDo m c b => .whileDo m c.interned b.interned
  | .funDecl m x params body => .funDecl m (t.number x) (params.map t.number) (internedAll body)
  | .returns m e => .returns m (internedOption e)
  | .breaks m e => .breaks m (internedOption e)
  | .classDecl m x => .classDecl m (t.number x)

/-- A branch that may be missing, with the numbers of a table. -/
def internedElse : Option Stmt → Option Interned.Stmt
  | none => none
  | some s => some s.interned

/-- Statements with the numbers of a table. -/
def internedAll : List Stmt → List Interned.Stmt
  | [] => []
  | s :: ss => s.interned :: internedAll ss

end

end Lox
