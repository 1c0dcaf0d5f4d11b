import Lox.Syntax
import Lox.Text.Quoted

/-!
# Outlines

The outline of a tree is a text that shows its shape: every node in parentheses, after the name
of its sort, and its span behind an `@`.

* `Expr.outline`, `Stmt.outline`.
-/

namespace Lox

/-- The text of a literal. -/
def Literal.outline : Literal → String
  | nil => "nil"
  | bool true => "true"
  | bool false => "false"
  | int n => toString n.toInt
  | float x => "#" ++ floatBits x
  | str s => quoted s

/-- A node's text with its span. -/
def Mark.outline (m : Mark) (text : String) : String := text ++ "@" ++ m.span.render

/-- A parameter list. -/
def outlineParams (params : List String) : String := "(" ++ " ".intercalate params ++ ")"

mutual

/-- The outline of an expression. -/
def Expr.outline : Expr → String
  | .literal m v => m.outline v.outline
  | .group m e => m.outline s!"(group {e.outline})"
  | .unary m op e => m.outline s!"({op.symbol} {e.outline})"
  | .binary m l op r => m.outline s!"({op.symbol} {l.outline} {r.outline})"
  | .logical m l op r => m.outline s!"({op.symbol} {l.outline} {r.outline})"
  | .var m x => m.outline x
  | .assign m x e => m.outline s!"(= {x} {e.outline})"
  | .call m f args => m.outline s!"(call {f.outline}{outlineArgs args})"
  | .lambda m params body => m.outline s!"(lambda {outlineParams params} {outlineBody body})"
  | .get m e x => m.outline s!"(. {e.outline} {x})"
  | .set m e x v => m.outline s!"(.= {e.outline} {x} {v.outline})"

/-- The outlines of arguments, with a blank before each. -/
def outlineArgs : List Expr → String
  | [] => ""
  | e :: es => " " ++ e.outline ++ outlineArgs es

/-- The outline of an operand that may be missing, with a blank before it. -/
def outlineOperand : Option Expr → String
  | none => ""
  | some e => " " ++ e.outline

/-- The outline of a statement. -/
def Stmt.outline : Stmt → String
  | .expression m e => m.outline s!"(expr {e.outline})"
  | .print m e => m.outline s!"(print {e.outline})"
  | .varDecl m x e => m.outline s!"(var {x}{outlineOperand e})"
  | .block m body => m.outline (outlineBody body)
  | .ifElse m c t e => m.outline s!"(if {c.outline} {t.outline}{outlineElse e})"
  | .whileDo m c b => m.outline s!"(while {c.outline} {b.outline})"
  | .funDecl m x params body =>
    m.outline s!"(fun {x} {outlineParams params} {outlineBody body})"
  | .returns m e => m.outline s!"(return{outlineOperand e})"
  | .breaks m e => m.outline s!"(break{outlineOperand e})"
  | .classDecl m x => m.outline s!"(class {x})"

/-- The outline of a branch that may be missing, with a blank before it. -/
def outlineElse : Option Stmt → String
  | none => ""
  | some s => " " ++ s.outline

/-- The outlines of statements between braces. -/
def outlineBody (body : List Stmt) : String := "\x7b" ++ outlineAll body ++ "\x7d"

/-- The outlines of statements, with a blank between two. -/
def outlineAll : List Stmt → String
  | [] => ""
  | [s] => s.outline
  | s :: t :: rest => s.outline ++ " " ++ outlineAll (t :: rest)

end

end Lox
