import Lox.Syntax

/-!
# Braces

A statement that declares nothing in the frame in which it is run may stand in braces as well.

* `Stmt.sheltered`: whether all declarations in a statement are in blocks and function bodies of it;
* `Expr.Braced`, `Stmt.Braced`: trees and the same trees with braces around some such statements,
  and `EachBraced`, `AllBraced` for lists of them;
* `AllBraced.refl`, `AllBraced.map_inBraces`: no braces, and those around whole statements.
-/

namespace Lox

/-! ### What a statement declares -/

mutual

/-- Whether a statement declares nothing in the frame in which it is run: the declarations in it are
in blocks and function bodies of it. -/
def Stmt.sheltered : Stmt → Bool
  | .varDecl _ _ _ | .funDecl _ _ _ _ | .classDecl _ _ => false
  | .ifElse _ _ t e => t.sheltered && shelteredElse e
  | .whileDo _ _ b => b.sheltered
  | _ => true

/-- Whether a branch that may be missing declares nothing in the frame in which it is run. -/
def shelteredElse : Option Stmt → Bool
  | none => true
  | some s => s.sheltered

end

/-! ### Trees with more braces -/

mutual

/-- The second of two expressions is the first one, but for marks, with braces around some
statements in its function bodies. -/
inductive Expr.Braced : Expr → Expr → Prop
  | literal {m m' : Mark} {v : Literal} : Expr.Braced (.literal m v) (.literal m' v)
  | group {m m' : Mark} {e e' : Expr} (inner : Expr.Braced e e') :
    Expr.Braced (.group m e) (.group m' e')
  | unary {m m' : Mark} {op : UnaryOp} {e e' : Expr} (operand : Expr.Braced e e') :
    Expr.Braced (.unary m op e) (.unary m' op e')
  | binary {m m' : Mark} {op : BinaryOp} {l l' r r' : Expr} (left : Expr.Braced l l')
    (right : Expr.Braced r r') : Expr.Braced (.binary m l op r) (.binary m' l' op r')
  | logical {m m' : Mark} {op : LogicalOp} {l l' r r' : Expr} (left : Expr.Braced l l')
    (right : Expr.Braced r r') : Expr.Braced (.logical m l op r) (.logical m' l' op r')
  | var {m m' : Mark} {x : String} : Expr.Braced (.var m x) (.var m' x)
  | assign {m m' : Mark} {x : String} {e e' : Expr} (value : Expr.Braced e e') :
    Expr.Braced (.assign m x e) (.assign m' x e')
  | call {m m' : Mark} {f f' : Expr} {args args' : List Expr} (callee : Expr.Braced f f')
    (each : EachBraced args args') : Expr.Braced (.call m f args) (.call m' f' args')
  | lambda {m m' : Mark} {params : List String} {body body' : List Stmt}
    (all : AllBraced body body') : Expr.Braced (.lambda m params body) (.lambda m' params body')
  | get {m m' : Mark} {x : String} {e e' : Expr} (object : Expr.Braced e e') :
    Expr.Braced (.get m e x) (.get m' e' x)
  | set {m m' : Mark} {x : String} {e e' v v' : Expr} (object : Expr.Braced e e')
    (value : Expr.Braced v v') : Expr.Braced (.set m e x v) (.set m' e' x v')

/-- The same for lists of expressions. -/
inductive EachBraced : List Expr → List Expr → Prop
  | nil : EachBraced [] []
  | cons {e e' : Expr} {es es' : List Expr} (head : Expr.Braced e e')
    (tail : EachBraced es es') : EachBraced (e :: es) (e' :: es')

/-- The same for expressions that may be missing. -/
inductive OptionBraced : Option Expr → Option Expr → Prop
  | none : OptionBraced none none
  | some {e e' : Expr} (value : Expr.Braced e e') : OptionBraced (some e) (some e')

/-- The second of two statements is the first one, but for marks, with braces around some statements
in it, or around all of it, that declare nothing in the frame in which they are run. -/
inductive Stmt.Braced : Stmt → Stmt → Prop
  | brace {m : Mark} {s s' : Stmt} (sheltered : s.sheltered = true) (inner : Stmt.Braced s s') :
    Stmt.Braced s (.block m [s'])
  | expression {m m' : Mark} {e e' : Expr} (value : Expr.Braced e e') :
    Stmt.Braced (.expression m e) (.expression m' e')
  | print {m m' : Mark} {e e' : Expr} (value : Expr.Braced e e') :
    Stmt.Braced (.print m e) (.print m' e')
  | varDecl {m m' : Mark} {x : String} {e e' : Option Expr} (value : OptionBraced e e') :
    Stmt.Braced (.varDecl m x e) (.varDecl m' x e')
  | block {m m' : Mark} {body body' : List Stmt} (all : AllBraced body body') :
    Stmt.Braced (.block m body) (.block m' body')
  | ifElse {m m' : Mark} {c c' : Expr} {t t' : Stmt} {e e' : Option Stmt}
    (condition : Expr.Braced c c') (thenBranch : Stmt.Braced t t')
    (elseBranch : ElseBraced e e') : Stmt.Braced (.ifElse m c t e) (.ifElse m' c' t' e')
  | whileDo {m m' : Mark} {c c' : Expr} {b b' : Stmt} (condition : Expr.Braced c c')
    (body : Stmt.Braced b b') : Stmt.Braced (.whileDo m c b) (.whileDo m' c' b')
  | funDecl {m m' : Mark} {x : String} {params : List String} {body body' : List Stmt}
    (all : AllBraced body body') :
    Stmt.Braced (.funDecl m x params body) (.funDecl m' x params body')
  | returns {m m' : Mark} {e e' : Option Expr} (value : OptionBraced e e') :
    Stmt.Braced (.returns m e) (.returns m' e')
  | breaks {m m' : Mark} {e e' : Option Expr} (value : OptionBraced e e') :
    Stmt.Braced (.breaks m e) (.breaks m' e')
  | classDecl {m m' : Mark} {x : String} : Stmt.Braced (.classDecl m x) (.classDecl m' x)

/-- The same for branches that may be missing. -/
inductive ElseBraced : Option Stmt → Option Stmt → Prop
  | none : ElseBraced none none
  | some {s s' : Stmt} (branch : Stmt.Braced s s') : ElseBraced (some s) (some s')

/-- The same for lists of statements. -/
inductive AllBraced : List Stmt → List Stmt → Prop
  | nil : AllBraced [] []
  | cons {s s' : Stmt} {ss ss' : List Stmt} (head : Stmt.Braced s s') (tail : AllBraced ss ss') :
    AllBraced (s :: ss) (s' :: ss')

end

/-! ### The same trees -/

mutual

theorem Expr.Braced.refl : ∀ e : Expr, e.Braced e
  | .literal _ _ => .literal
  | .var _ _ => .var
  | .group _ e => .group (.refl e)
  | .unary _ _ e => .unary (.refl e)
  | .binary _ l _ r => .binary (.refl l) (.refl r)
  | .logical _ l _ r => .logical (.refl l) (.refl r)
  | .assign _ _ e => .assign (.refl e)
  | .call _ f args => .call (.refl f) (.refl args)
  | .lambda _ _ body => .lambda (.refl body)
  | .get _ e _ => .get (.refl e)
  | .set _ e _ v => .set (.refl e) (.refl v)

theorem EachBraced.refl : ∀ es : List Expr, EachBraced es es
  | [] => .nil
  | e :: es => .cons (.refl e) (.refl es)

theorem OptionBraced.refl : ∀ e : Option Expr, OptionBraced e e
  | none => .none
  | some e => .some (.refl e)

theorem Stmt.Braced.refl : ∀ s : Stmt, s.Braced s
  | .expression _ e => .expression (.refl e)
  | .print _ e => .print (.refl e)
  | .varDecl _ _ e => .varDecl (.refl e)
  | .block _ body => .block (.refl body)
  | .ifElse _ c t e => .ifElse (.refl c) (.refl t) (.refl e)
  | .whileDo _ c b => .whileDo (.refl c) (.refl b)
  | .funDecl _ _ _ body => .funDecl (.refl body)
  | .returns _ e => .returns (.refl e)
  | .breaks _ e => .breaks (.refl e)
  | .classDecl _ _ => .classDecl

theorem ElseBraced.refl : ∀ s : Option Stmt, ElseBraced s s
  | none => .none
  | some s => .some (.refl s)

theorem AllBraced.refl : ∀ ss : List Stmt, AllBraced ss ss
  | [] => .nil
  | s :: ss => .cons (.refl s) (.refl ss)

end

/-- A statement in braces, unless it declares something in the frame in which it is run. -/
def Stmt.inBraces (s : Stmt) : Stmt := if s.sheltered then .block s.mark [s] else s

theorem Stmt.Braced.inBraces (s : Stmt) : s.Braced s.inBraces := by
  unfold Stmt.inBraces
  split
  · next h => exact .brace h (.refl s)
  · exact .refl s

theorem AllBraced.map_inBraces (ss : List Stmt) : AllBraced ss (ss.map Stmt.inBraces) := by
  induction ss with
  | nil => exact .nil
  | cons s ss ih => exact .cons (.inBraces s) ih

end Lox
