import Mathlib.Data.List.Forall2
import Lox.Proofs.Nodes
import Lox.Proofs.Unmarked

/-!
# Trees that differ in their marks

* `Expr.Like`, `Stmt.Like`: trees that are the same but for their marks, which correspond, and
  `EachLike`, `AllLike` for lists of them;
* `Expr.Like.unmarked`, `Stmt.Like.unmarked`: without their marks they are the same;
* `Expr.Like.eq`, `Stmt.Like.eq`: they are the same if corresponding marks are;
* `Expr.Like.nodes`, `Stmt.Like.nodes`: their nodes correspond one by one.
-/

namespace Lox

/-- The mark of a node. -/
def Node.mark : Node → Mark
  | expr e => e.mark
  | stmt s => s.mark

theorem Node.span_eq (n : Node) : n.span = n.mark.span := by
  cases n <;> rfl

section Like

variable (M : Mark → Mark → Prop)

mutual

/-- Expressions that are the same but for their marks. -/
inductive Expr.Like : Expr → Expr → Prop
  | literal {m m' : Mark} {v : Literal} (mark : M m m') : Expr.Like (.literal m v) (.literal m' v)
  | group {m m' : Mark} {e e' : Expr} (mark : M m m') (inner : Expr.Like e e') :
    Expr.Like (.group m e) (.group m' e')
  | unary {m m' : Mark} {op : UnaryOp} {e e' : Expr} (mark : M m m') (operand : Expr.Like e e') :
    Expr.Like (.unary m op e) (.unary m' op e')
  | binary {m m' : Mark} {op : BinaryOp} {l l' r r' : Expr} (mark : M m m') (left : Expr.Like l l')
    (right : Expr.Like r r') : Expr.Like (.binary m l op r) (.binary m' l' op r')
  | logical {m m' : Mark} {op : LogicalOp} {l l' r r' : Expr} (mark : M m m')
    (left : Expr.Like l l') (right : Expr.Like r r') :
    Expr.Like (.logical m l op r) (.logical m' l' op r')
  | var {m m' : Mark} {x : String} (mark : M m m') : Expr.Like (.var m x) (.var m' x)
  | assign {m m' : Mark} {x : String} {e e' : Expr} (mark : M m m') (value : Expr.Like e e') :
    Expr.Like (.assign m x e) (.assign m' x e')
  | call {m m' : Mark} {f f' : Expr} {args args' : List Expr} (mark : M m m')
    (callee : Expr.Like f f') (each : EachLike args args') :
    Expr.Like (.call m f args) (.call m' f' args')
  | lambda {m m' : Mark} {params : List String} {body body' : List Stmt} (mark : M m m')
    (all : AllLike body body') : Expr.Like (.lambda m params body) (.lambda m' params body')
  | get {m m' : Mark} {x : String} {e e' : Expr} (mark : M m m') (object : Expr.Like e e') :
    Expr.Like (.get m e x) (.get m' e' x)
  | set {m m' : Mark} {x : String} {e e' v v' : Expr} (mark : M m m') (object : Expr.Like e e')
    (value : Expr.Like v v') : Expr.Like (.set m e x v) (.set m' e' x v')

/-- Lists of expressions that are the same but for their marks. -/
inductive EachLike : List Expr → List Expr → Prop
  | nil : EachLike [] []
  | cons {e e' : Expr} {es es' : List Expr} (head : Expr.Like e e') (tail : EachLike es es') :
    EachLike (e :: es) (e' :: es')

/-- Expressions that may be missing, and are the same but for their marks. -/
inductive OptionLike : Option Expr → Option Expr → Prop
  | none : OptionLike none none
  | some {e e' : Expr} (value : Expr.Like e e') : OptionLike (some e) (some e')

/-- Statements that are the same but for their marks. -/
inductive Stmt.Like : Stmt → Stmt → Prop
  | expression {m m' : Mark} {e e' : Expr} (mark : M m m') (value : Expr.Like e e') :
    Stmt.Like (.expression m e) (.expression m' e')
  | print {m m' : Mark} {e e' : Expr} (mark : M m m') (value : Expr.Like e e') :
    Stmt.Like (.print m e) (.print m' e')
  | varDecl {m m' : Mark} {x : String} {e e' : Option Expr} (mark : M m m')
    (value : OptionLike e e') : Stmt.Like (.varDecl m x e) (.varDecl m' x e')
  | block {m m' : Mark} {body body' : List Stmt} (mark : M m m') (all : AllLike body body') :
    Stmt.Like (.block m body) (.block m' body')
  | ifElse {m m' : Mark} {c c' : Expr} {t t' : Stmt} {e e' : Option Stmt} (mark : M m m')
    (condition : Expr.Like c c') (thenBranch : Stmt.Like t t') (elseBranch : ElseLike e e') :
    Stmt.Like (.ifElse m c t e) (.ifElse m' c' t' e')
  | whileDo {m m' : Mark} {c c' : Expr} {b b' : Stmt} (mark : M m m')
    (condition : Expr.Like c c') (body : Stmt.Like b b') :
    Stmt.Like (.whileDo m c b) (.whileDo m' c' b')
  | funDecl {m m' : Mark} {x : String} {params : List String} {body body' : List Stmt}
    (mark : M m m') (all : AllLike body body') :
    Stmt.Like (.funDecl m x params body) (.funDecl m' x params body')
  | returns {m m' : Mark} {e e' : Option Expr} (mark : M m m') (value : OptionLike e e') :
    Stmt.Like (.returns m e) (.returns m' e')
  | breaks {m m' : Mark} {e e' : Option Expr} (mark : M m m') (value : OptionLike e e') :
    Stmt.Like (.breaks m e) (.breaks m' e')
  | classDecl {m m' : Mark} {x : String} (mark : M m m') :
    Stmt.Like (.classDecl m x) (.classDecl m' x)

/-- Branches that may be missing, and are the same but for their marks. -/
inductive ElseLike : Option Stmt → Option Stmt → Prop
  | none : ElseLike none none
  | some {s s' : Stmt} (branch : Stmt.Like s s') : ElseLike (some s) (some s')

/-- Lists of statements that are the same but for their marks. -/
inductive AllLike : List Stmt → List Stmt → Prop
  | nil : AllLike [] []
  | cons {s s' : Stmt} {ss ss' : List Stmt} (head : Stmt.Like s s') (tail : AllLike ss ss') :
    AllLike (s :: ss) (s' :: ss')

end

end Like

variable {M : Mark → Mark → Prop}

theorem eachLike_iff {es es' : List Expr} :
    EachLike M es es' ↔ List.Forall₂ (Expr.Like M) es es' := by
  constructor
  · intro h
    induction es generalizing es' with
    | nil => cases h; exact .nil
    | cons e es ih => cases h with | cons head tail => exact .cons head (ih tail)
  · intro h
    induction h with
    | nil => exact .nil
    | cons head _ ih => exact .cons head ih

theorem allLike_iff {ss ss' : List Stmt} :
    AllLike M ss ss' ↔ List.Forall₂ (Stmt.Like M) ss ss' := by
  constructor
  · intro h
    induction ss generalizing ss' with
    | nil => cases h; exact .nil
    | cons s ss ih => cases h with | cons head tail => exact .cons head (ih tail)
  · intro h
    induction h with
    | nil => exact .nil
    | cons head _ ih => exact .cons head ih

/-! ### Without marks -/

mutual

theorem Expr.Like.unmarked {e e' : Expr} : e.Like M e' → e.unmarked = e'.unmarked
  | .literal _ | .var _ => rfl
  | .group _ h | .unary _ h | .assign _ h | .get _ h => by
    simp only [Expr.unmarked, h.unmarked]
  | .binary _ h h' | .logical _ h h' | .set _ h h' => by
    simp only [Expr.unmarked, h.unmarked, h'.unmarked]
  | .call _ h hargs => by simp only [Expr.unmarked, h.unmarked, hargs.unmarked]
  | .lambda _ hbody => by simp only [Expr.unmarked, hbody.unmarked]

theorem EachLike.unmarked {es es' : List Expr} : EachLike M es es' →
    unmarkedEach es = unmarkedEach es'
  | .nil => rfl
  | .cons h hs => by simp only [unmarkedEach, h.unmarked, hs.unmarked]

theorem OptionLike.unmarked {e e' : Option Expr} : OptionLike M e e' →
    unmarkedOption e = unmarkedOption e'
  | .none => rfl
  | .some h => by simp only [unmarkedOption, h.unmarked]

theorem Stmt.Like.unmarked {s s' : Stmt} : s.Like M s' → s.unmarked = s'.unmarked
  | .expression _ h | .print _ h => by simp only [Stmt.unmarked, h.unmarked]
  | .varDecl _ h | .returns _ h | .breaks _ h => by simp only [Stmt.unmarked, h.unmarked]
  | .block _ h | .funDecl _ h => by simp only [Stmt.unmarked, h.unmarked]
  | .ifElse _ hc ht he => by simp only [Stmt.unmarked, hc.unmarked, ht.unmarked, he.unmarked]
  | .whileDo _ hc hb => by simp only [Stmt.unmarked, hc.unmarked, hb.unmarked]
  | .classDecl _ => rfl

theorem ElseLike.unmarked {s s' : Option Stmt} : ElseLike M s s' →
    unmarkedElse s = unmarkedElse s'
  | .none => rfl
  | .some h => by simp only [unmarkedElse, h.unmarked]

theorem AllLike.unmarked {ss ss' : List Stmt} : AllLike M ss ss' →
    unmarkedAll ss = unmarkedAll ss'
  | .nil => rfl
  | .cons h hs => by simp only [unmarkedAll, h.unmarked, hs.unmarked]

end

/-! ### With the same marks -/

/-- Only equal marks correspond. -/
def SameMarks (M : Mark → Mark → Prop) : Prop := ∀ m m', M m m' → m = m'

mutual

theorem Expr.Like.eq (hM : SameMarks M) {e e' : Expr} : e.Like M e' → e = e'
  | .literal m | .var m => by rw [hM _ _ m]
  | .group m h | .unary m h | .assign m h | .get m h => by rw [hM _ _ m, h.eq hM]
  | .binary m h h' | .logical m h h' | .set m h h' => by rw [hM _ _ m, h.eq hM, h'.eq hM]
  | .call m h hargs => by rw [hM _ _ m, h.eq hM, hargs.eq hM]
  | .lambda m hbody => by rw [hM _ _ m, hbody.eq hM]

theorem EachLike.eq (hM : SameMarks M) {es es' : List Expr} : EachLike M es es' → es = es'
  | .nil => rfl
  | .cons h hs => by rw [h.eq hM, hs.eq hM]

theorem OptionLike.eq (hM : SameMarks M) {e e' : Option Expr} : OptionLike M e e' → e = e'
  | .none => rfl
  | .some h => by rw [h.eq hM]

theorem Stmt.Like.eq (hM : SameMarks M) {s s' : Stmt} : s.Like M s' → s = s'
  | .expression m h | .print m h => by rw [hM _ _ m, h.eq hM]
  | .varDecl m h | .returns m h | .breaks m h => by rw [hM _ _ m, h.eq hM]
  | .block m h | .funDecl m h => by rw [hM _ _ m, h.eq hM]
  | .ifElse m hc ht he => by rw [hM _ _ m, hc.eq hM, ht.eq hM, he.eq hM]
  | .whileDo m hc hb => by rw [hM _ _ m, hc.eq hM, hb.eq hM]
  | .classDecl m => by rw [hM _ _ m]

theorem ElseLike.eq (hM : SameMarks M) {s s' : Option Stmt} : ElseLike M s s' → s = s'
  | .none => rfl
  | .some h => by rw [h.eq hM]

theorem AllLike.eq (hM : SameMarks M) {ss ss' : List Stmt} : AllLike M ss ss' → ss = ss'
  | .nil => rfl
  | .cons h hs => by rw [h.eq hM, hs.eq hM]

end

/-! ### Nodes -/

/-- The marks of nodes correspond. -/
abbrev NodesLike (M : Mark → Mark → Prop) : List Node → List Node → Prop :=
  List.Forall₂ fun n n' => M n.mark n'.mark

mutual

theorem Expr.Like.nodes {e e' : Expr} : e.Like M e' → NodesLike M e.nodes e'.nodes
  | .literal m | .var m => .cons m .nil
  | .group m h | .unary m h | .assign m h | .get m h => .cons m h.nodes
  | .binary m h h' | .logical m h h' | .set m h h' => .cons m (List.rel_append h.nodes h'.nodes)
  | .call m h hargs => .cons m (List.rel_append h.nodes hargs.nodes)
  | .lambda m hbody => .cons m hbody.nodes

theorem EachLike.nodes {es es' : List Expr} : EachLike M es es' →
    NodesLike M (nodesEach es) (nodesEach es')
  | .nil => .nil
  | .cons h hs => List.rel_append h.nodes hs.nodes

theorem OptionLike.nodes {e e' : Option Expr} : OptionLike M e e' →
    NodesLike M (nodesOption e) (nodesOption e')
  | .none => .nil
  | .some h => h.nodes

theorem Stmt.Like.nodes {s s' : Stmt} : s.Like M s' → NodesLike M s.nodes s'.nodes
  | .expression m h | .print m h => .cons m h.nodes
  | .varDecl m h | .returns m h | .breaks m h => .cons m h.nodes
  | .block m h | .funDecl m h => .cons m h.nodes
  | .ifElse m hc ht he => .cons m (List.rel_append (List.rel_append hc.nodes ht.nodes) he.nodes)
  | .whileDo m hc hb => .cons m (List.rel_append hc.nodes hb.nodes)
  | .classDecl m => .cons m .nil

theorem ElseLike.nodes {s s' : Option Stmt} : ElseLike M s s' →
    NodesLike M (nodesElse s) (nodesElse s')
  | .none => .nil
  | .some h => h.nodes

theorem AllLike.nodes {ss ss' : List Stmt} : AllLike M ss ss' →
    NodesLike M (nodesAll ss) (nodesAll ss')
  | .nil => .nil
  | .cons h hs => List.rel_append h.nodes hs.nodes

end

end Lox
