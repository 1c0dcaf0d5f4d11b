import Lox.Syntax

/-!
# The nodes of trees

* `Node`: an expression or a statement;
* `Expr.nodes`, `Stmt.nodes`, `Program.nodes`: the nodes of a tree, with its root, and of a
  program;
* `Expr.whole_nodes`, `Stmt.whole_nodes`: below a node there are only nodes of the tree;
* `Node.children`: what is directly below a node;
* `Node.texts`: the names and string texts at a node.
-/

namespace Lox

/-- An expression or a statement in a tree. -/
inductive Node
  | expr (e : Expr)
  | stmt (s : Stmt)

/-- The text that a node spans. -/
def Node.span : Node → Span
  | expr e => e.span
  | stmt s => s.span

/-- The names and the text of a string that a node has, apart from those of the nodes below it. -/
def Node.texts : Node → List String
  | expr (.literal _ (.str s)) => [s]
  | expr (.var _ x) | expr (.assign _ x _) | expr (.get _ _ x) | expr (.set _ _ x _) => [x]
  | expr (.lambda _ params _) => params
  | stmt (.varDecl _ x _) | stmt (.classDecl _ x) => [x]
  | stmt (.funDecl _ x params _) => x :: params
  | _ => []

mutual

/-- The nodes of an expression, with the expression itself. -/
def Expr.nodes : Expr → List Node
  | .literal m v => [.expr (.literal m v)]
  | .group m e => .expr (.group m e) :: e.nodes
  | .unary m op e => .expr (.unary m op e) :: e.nodes
  | .binary m l op r => .expr (.binary m l op r) :: (l.nodes ++ r.nodes)
  | .logical m l op r => .expr (.logical m l op r) :: (l.nodes ++ r.nodes)
  | .var m x => [.expr (.var m x)]
  | .assign m x e => .expr (.assign m x e) :: e.nodes
  | .call m f args => .expr (.call m f args) :: (f.nodes ++ nodesEach args)
  | .lambda m params body => .expr (.lambda m params body) :: nodesAll body
  | .get m e x => .expr (.get m e x) :: e.nodes
  | .set m e x v => .expr (.set m e x v) :: (e.nodes ++ v.nodes)

/-- The nodes of expressions. -/
def nodesEach : List Expr → List Node
  | [] => []
  | e :: es => e.nodes ++ nodesEach es

/-- The nodes of an expression that may be missing. -/
def nodesOption : Option Expr → List Node
  | none => []
  | some e => e.nodes

/-- The nodes of a statement, with the statement itself. -/
def Stmt.nodes : Stmt → List Node
  | .expression m e => .stmt (.expression m e) :: e.nodes
  | .print m e => .stmt (.print m e) :: e.nodes
  | .varDecl m x e => .stmt (.varDecl m x e) :: nodesOption e
  | .block m body => .stmt (.block m body) :: nodesAll body
  | .ifElse m c t e => .stmt (.ifElse m c t e) :: (c.nodes ++ t.nodes ++ nodesElse e)
  | .whileDo m c b => .stmt (.whileDo m c b) :: (c.nodes ++ b.nodes)
  | .funDecl m x params body => .stmt (.funDecl m x params body) :: nodesAll body
  | .returns m e => .stmt (.returns m e) :: nodesOption e
  | .breaks m e => .stmt (.breaks m e) :: nodesOption e
  | .classDecl m x => [.stmt (.classDecl m x)]

/-- The nodes of a branch that may be missing. -/
def nodesElse : Option Stmt → List Node
  | none => []
  | some s => s.nodes

/-- The nodes of statements. -/
def nodesAll : List Stmt → List Node
  | [] => []
  | s :: ss => s.nodes ++ nodesAll ss

end

/-- The nodes of a program. -/
def Program.nodes (program : Program) : List Node := nodesAll program.statements

theorem Expr.mem_nodes (e : Expr) : .expr e ∈ e.nodes := by
  cases e <;> simp [nodes]

theorem Stmt.mem_nodes (s : Stmt) : .stmt s ∈ s.nodes := by
  cases s <;> simp [nodes]

/-! ### Trees within trees -/

/-- The nodes of the tree under a node. -/
def Node.nodes : Node → List Node
  | expr e => e.nodes
  | stmt s => s.nodes

/-- With every node, all nodes below it belong to several nodes. -/
def Whole (ns : List Node) : Prop := ∀ n ∈ ns, n.nodes ⊆ ns

namespace Whole

variable {ms ns : List Node}

theorem nil : Whole [] := by simp [Whole]

theorem append (hm : Whole ms) (hn : Whole ns) : Whole (ms ++ ns) := by
  intro n h
  rcases List.mem_append.1 h with h | h
  · exact List.subset_append_of_subset_left _ (hm n h)
  · exact List.subset_append_of_subset_right _ (hn n h)

theorem cons {root : Node} (hroot : root.nodes = root :: ns) (h : Whole ns) :
    Whole (root :: ns) := by
  intro n hn
  rcases List.mem_cons.1 hn with rfl | hn
  · rw [hroot]
    exact List.Subset.refl _
  · exact List.subset_cons_of_subset _ (h n hn)

end Whole

mutual

theorem Expr.whole_nodes (e : Expr) : Whole e.nodes := by
  cases e with
  | literal | var => exact .cons rfl .nil
  | group _ e | unary _ _ e | assign _ _ e | get _ e _ => exact .cons rfl e.whole_nodes
  | binary _ e _ e' | logical _ e _ e' | set _ e _ e' =>
    exact .cons rfl (e.whole_nodes.append e'.whole_nodes)
  | call _ f args => exact .cons rfl (f.whole_nodes.append (whole_nodesEach args))
  | lambda _ _ body => exact .cons rfl (whole_nodesAll body)

theorem whole_nodesEach (es : List Expr) : Whole (nodesEach es) := by
  cases es with
  | nil => exact .nil
  | cons e es => exact e.whole_nodes.append (whole_nodesEach es)

theorem whole_nodesOption (e : Option Expr) : Whole (nodesOption e) := by
  cases e with
  | none => exact .nil
  | some e => exact e.whole_nodes

theorem Stmt.whole_nodes (s : Stmt) : Whole s.nodes := by
  cases s with
  | expression _ e | print _ e => exact .cons rfl e.whole_nodes
  | varDecl _ _ e => exact .cons rfl (whole_nodesOption e)
  | returns _ e | breaks _ e => exact .cons rfl (whole_nodesOption e)
  | block _ body => exact .cons rfl (whole_nodesAll body)
  | funDecl _ _ _ body => exact .cons rfl (whole_nodesAll body)
  | ifElse _ c t e =>
    exact .cons rfl ((c.whole_nodes.append t.whole_nodes).append (whole_nodesElse e))
  | whileDo _ c b => exact .cons rfl (c.whole_nodes.append b.whole_nodes)
  | classDecl => exact .cons rfl .nil

theorem whole_nodesElse (s : Option Stmt) : Whole (nodesElse s) := by
  cases s with
  | none => exact .nil
  | some s => exact s.whole_nodes

theorem whole_nodesAll (ss : List Stmt) : Whole (nodesAll ss) := by
  cases ss with
  | nil => exact .nil
  | cons s ss => exact s.whole_nodes.append (whole_nodesAll ss)

end

/-! ### Nodes directly below -/

theorem nodesEach_eq (es : List Expr) : nodesEach es = (es.map Node.expr).flatMap Node.nodes := by
  induction es with
  | nil => rfl
  | cons e es ih => simp [nodesEach, ih, Node.nodes]

theorem nodesOption_eq (e : Option Expr) :
    nodesOption e = (e.map Node.expr).toList.flatMap Node.nodes := by
  cases e <;> simp [nodesOption, Node.nodes]

theorem nodesElse_eq (s : Option Stmt) :
    nodesElse s = (s.map Node.stmt).toList.flatMap Node.nodes := by
  cases s <;> simp [nodesElse, Node.nodes]

theorem nodesAll_eq (ss : List Stmt) : nodesAll ss = (ss.map Node.stmt).flatMap Node.nodes := by
  induction ss with
  | nil => rfl
  | cons s ss ih => simp [nodesAll, ih, Node.nodes]

namespace Node

/-- The nodes directly below a node, from left to right. -/
def children : Node → List Node
  | expr (.group _ e) | expr (.unary _ _ e) | expr (.assign _ _ e) | expr (.get _ e _)
  | stmt (.expression _ e) | stmt (.print _ e) => [.expr e]
  | expr (.binary _ l _ r) | expr (.logical _ l _ r) | expr (.set _ l _ r) => [.expr l, .expr r]
  | expr (.call _ f args) => .expr f :: args.map .expr
  | expr (.lambda _ _ body) | stmt (.block _ body) | stmt (.funDecl _ _ _ body) => body.map .stmt
  | stmt (.varDecl _ _ e) | stmt (.returns _ e) | stmt (.breaks _ e) => (e.map .expr).toList
  | stmt (.ifElse _ c t e) => .expr c :: .stmt t :: (e.map .stmt).toList
  | stmt (.whileDo _ c b) => [.expr c, .stmt b]
  | expr (.literal _ _) | expr (.var _ _) | stmt (.classDecl _ _) => []

/-- The nodes of a tree are its root and those of the trees directly below. -/
theorem nodes_eq (n : Node) : n.nodes = n :: n.children.flatMap Node.nodes := by
  cases n with
  | expr e =>
    cases e <;>
      simp [nodes, children, Expr.nodes, nodesEach_eq, nodesAll_eq]
  | stmt s =>
    cases s <;>
      simp [nodes, children, Stmt.nodes, nodesAll_eq, nodesOption_eq, nodesElse_eq]

theorem mem_nodes (n : Node) : n ∈ n.nodes := by
  rw [nodes_eq]
  exact .head _

end Node

theorem Program.nodes_eq (p : Program) :
    p.nodes = (p.statements.map Node.stmt).flatMap Node.nodes := nodesAll_eq _

/-- The statements at the top of a program are nodes of it. -/
theorem Program.stmt_mem_nodes {p : Program} {s : Stmt} (hs : s ∈ p.statements) :
    .stmt s ∈ p.nodes := by
  rw [p.nodes_eq]
  exact List.mem_flatMap.2 ⟨_, List.mem_map_of_mem hs, Node.mem_nodes _⟩

/-- The nodes directly below a node of a program are nodes of the program. -/
theorem Program.children_subset {p : Program} {n : Node} (hn : n ∈ p.nodes) :
    n.children ⊆ p.nodes := by
  intro m hm
  refine whole_nodesAll p.statements n hn ?_
  rw [n.nodes_eq]
  exact .tail _ (List.mem_flatMap.2 ⟨m, hm, m.mem_nodes⟩)

/-! ### Properties of all nodes -/

section All

variable {N : Node → Prop}

@[simp] theorem forall_mem_nodesEach {es : List Expr} :
    (∀ n ∈ nodesEach es, N n) ↔ ∀ e ∈ es, ∀ n ∈ e.nodes, N n := by
  induction es with
  | nil => simp [nodesEach]
  | cons e es ih => simp [nodesEach, or_imp, forall_and, ih]

@[simp] theorem forall_mem_nodesAll {ss : List Stmt} :
    (∀ n ∈ nodesAll ss, N n) ↔ ∀ s ∈ ss, ∀ n ∈ s.nodes, N n := by
  induction ss with
  | nil => simp [nodesAll]
  | cons s ss ih => simp [nodesAll, or_imp, forall_and, ih]

end All

end Lox
