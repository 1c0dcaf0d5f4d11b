import Lox.Proofs.Grammar

/-!
# Trees without their marks

The marks of a tree, the numbers and spans of its nodes, say where it was read. Without them, two
trees are the same if they were written in the same way, wherever that was.

* `Expr.unmarked`, `Stmt.unmarked`: trees in which every mark is the same;
* `Operator.unmarked_node`: the same for the node of any operator.
-/

namespace Lox

/-- The mark of every node of a tree without marks. -/
def Mark.blank : Mark := ⟨0, .point 0⟩

mutual

/-- An expression without its marks. -/
def Expr.unmarked : Expr → Expr
  | .literal _ v => .literal .blank v
  | .group _ e => .group .blank e.unmarked
  | .unary _ op e => .unary .blank op e.unmarked
  | .binary _ l op r => .binary .blank l.unmarked op r.unmarked
  | .logical _ l op r => .logical .blank l.unmarked op r.unmarked
  | .var _ x => .var .blank x
  | .assign _ x e => .assign .blank x e.unmarked
  | .call _ f args => .call .blank f.unmarked (unmarkedEach args)
  | .lambda _ params body => .lambda .blank params (unmarkedAll body)
  | .get _ e x => .get .blank e.unmarked x
  | .set _ e x v => .set .blank e.unmarked x v.unmarked

/-- Expressions without their marks. -/
def unmarkedEach : List Expr → List Expr
  | [] => []
  | e :: es => e.unmarked :: unmarkedEach es

/-- An expression that may be missing, without its marks. -/
def unmarkedOption : Option Expr → Option Expr
  | none => none
  | some e => some e.unmarked

/-- A statement without its marks. -/
def Stmt.unmarked : Stmt → Stmt
  | .expression _ e => .expression .blank e.unmarked
  | .print _ e => .print .blank e.unmarked
  | .varDecl _ x e => .varDecl .blank x (unmarkedOption e)
  | .block _ body => .block .blank (unmarkedAll body)
  | .ifElse _ c t e => .ifElse .blank c.unmarked t.unmarked (unmarkedElse e)
  | .whileDo _ c b => .whileDo .blank c.unmarked b.unmarked
  | .funDecl _ x params body => .funDecl .blank x params (unmarkedAll body)
  | .returns _ e => .returns .blank (unmarkedOption e)
  | .breaks _ e => .breaks .blank (unmarkedOption e)
  | .classDecl _ x => .classDecl .blank x

/-- A branch that may be missing, without its marks. -/
def unmarkedElse : Option Stmt → Option Stmt
  | none => none
  | some s => some s.unmarked

/-- Statements without their marks. -/
def unmarkedAll : List Stmt → List Stmt
  | [] => []
  | s :: ss => s.unmarked :: unmarkedAll ss

end

theorem unmarkedEach_eq_map (es : List Expr) : unmarkedEach es = es.map Expr.unmarked := by
  induction es with
  | nil => rfl
  | cons e es ih => rw [unmarkedEach, ih, List.map_cons]

theorem unmarkedAll_eq_map (ss : List Stmt) : unmarkedAll ss = ss.map Stmt.unmarked := by
  induction ss with
  | nil => rfl
  | cons s ss ih => rw [unmarkedAll, ih, List.map_cons]

/-- The marks below the node of an operator go with those of its operands. -/
@[simp] theorem Operator.unmarked_node (op : Operator) (m : Mark) (l r : Expr) :
    (op.node m l r).unmarked = op.node .blank l.unmarked r.unmarked := by
  cases op <;> rfl

end Lox
