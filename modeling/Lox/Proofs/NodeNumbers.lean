import Mathlib.Data.List.Nodup
import Lox.Proofs.Arena

/-!
# The numbers in a tree

The left side of an assignment is made before it is known that an assignment follows. It keeps its
number, but the assignment has the name, and the object whose property is given, for itself.

* `NodeId`, `Node.id`: the number of a node, with its sort;
* `LeftSide`, `Expr.left?`: what an assignment replaced;
* `Grown`: between two counts, every number is given to one node or to one left side, and what is
  below has smaller numbers;
* `Expr.grown`, `Stmt.grown`: so it is for trees that are numbered in order.
-/

namespace Lox

/-! ### Numbers -/

/-- A number of a node, with its sort. -/
inductive NodeId
  | expr (number : Nat)
  | stmt (number : Nat)
  deriving DecidableEq, Repr

/-- The number of a node. -/
def Node.id : Node → NodeId
  | expr e => .expr e.mark.number
  | stmt s => .stmt s.mark.number

/-- A number of an expression. -/
def NodeId.isExpr : NodeId → Bool
  | expr _ => true
  | stmt _ => false

@[simp] theorem NodeId.isExpr_expr (i : Nat) : (expr i).isExpr = true := rfl

@[simp] theorem NodeId.isExpr_stmt (i : Nat) : (stmt i).isExpr = false := rfl

/-- If two numbers are of one sort, the first one is smaller. -/
def NodeId.Precedes : NodeId → NodeId → Prop
  | expr i, expr j | stmt i, stmt j => i < j
  | _, _ => True

/-! ### Left sides -/

/-- An expression takes a place in the table of expressions. -/
def Slot.isExpr : Slot → Bool
  | node (.stmt _) => false
  | _ => true

/-- How many expressions are made. -/
def exprsMade (slots : List Slot) : Nat := slots.countP Slot.isExpr

/-- What an assignment replaced: a name, or a property of an object. -/
structure LeftSide where
  number : Nat
  object : Option Expr
  name : String

/-- The left side of an assignment. The expressions of the value were made after it, and then the
assignment. -/
def Expr.left? : Expr → Option LeftSide
  | assign m x v => some ⟨m.number - exprsMade v.slots - 1, none, x⟩
  | set m o x v => some ⟨m.number - exprsMade v.slots - 1, some o, x⟩
  | _ => none

/-- The left side of a node, if it is an assignment. -/
def Node.left? : Node → Option LeftSide
  | expr e => e.left?
  | stmt _ => none

/-- What an assignment replaces, if it has been made already: a name or a property. -/
def Expr.asLeft? : Expr → Option LeftSide
  | var m x => some ⟨m.number, none, x⟩
  | get m o x => some ⟨m.number, some o, x⟩
  | _ => none

/-- What is directly below a left side. -/
def LeftSide.children (l : LeftSide) : List Node := (l.object.map .expr).toList

/-! ### Numbers in a tree -/

/-- The numbers that are given between two counts. -/
def NodeId.between (c d : Counts) : List NodeId :=
  (List.range' c.exprs (d.exprs - c.exprs)).map .expr ++
    (List.range' c.stmts (d.stmts - c.stmts)).map .stmt

@[simp] theorem NodeId.expr_mem_between {c d : Counts} {i : Nat} :
    .expr i ∈ between c d ↔ c.exprs ≤ i ∧ i < d.exprs := by
  simp [between]
  omega

@[simp] theorem NodeId.stmt_mem_between {c d : Counts} {i : Nat} :
    .stmt i ∈ between c d ↔ c.stmts ≤ i ∧ i < d.stmts := by
  simp [between]
  omega

theorem NodeId.nodup_between (c d : Counts) : (between c d).Nodup := by
  have hexprs := (List.nodup_range' (s := c.exprs) (n := d.exprs - c.exprs)).map
    (f := expr) fun _ _ => expr.inj
  have hstmts := (List.nodup_range' (s := c.stmts) (n := d.stmts - c.stmts)).map
    (f := stmt) fun _ _ => stmt.inj
  refine List.nodup_append.2 ⟨hexprs, hstmts, fun q hq r hr heq => ?_⟩
  obtain ⟨i, -, rfl⟩ := List.mem_map.1 hq
  obtain ⟨j, -, rfl⟩ := List.mem_map.1 hr
  cases heq

theorem NodeId.between_append {b c d : Counts} (hbc : b.exprs ≤ c.exprs ∧ b.stmts ≤ c.stmts)
    (hcd : c.exprs ≤ d.exprs ∧ c.stmts ≤ d.stmts) :
    (between b c ++ between c d).Perm (between b d) := by
  have hrange {i j k : Nat} (hij : i ≤ j) (hjk : j ≤ k) :
      List.range' i (k - i) = List.range' i (j - i) ++ List.range' j (k - j) := by
    obtain ⟨m, rfl⟩ := Nat.exists_eq_add_of_le hij
    obtain ⟨l, rfl⟩ := Nat.exists_eq_add_of_le hjk
    rw [Nat.add_assoc, Nat.add_sub_cancel_left, Nat.add_sub_cancel_left, ← Nat.add_assoc,
      Nat.add_sub_cancel_left, List.range'_append_1]
  refine List.perm_iff_count.2 fun q => ?_
  simp only [between, hrange hbc.1 hcd.1, hrange hbc.2 hcd.2, List.map_append, List.count_append]
  omega

/-- The numbers of the left sides of assignments. -/
def leftNumbers (ns : List Node) : List Nat := (ns.filterMap Node.left?).map LeftSide.number

/-- What is below a node and below its left side has smaller numbers. -/
structure Node.Ordered (n : Node) : Prop where
  below : ∀ m ∈ n.children.flatMap nodes, m.id.Precedes n.id
  left : ∀ l ∈ n.left?, ∀ m ∈ l.children.flatMap nodes, m.id.Precedes (.expr l.number)

/-- Between two counts, nodes were made and left sides without an assignment yet. -/
structure Grown (c : Counts) (left : List Nat) (ns : List Node) (d : Counts) : Prop where
  exprs_le : c.exprs ≤ d.exprs
  stmts_le : c.stmts ≤ d.stmts
  ids : ((left ++ leftNumbers ns).map NodeId.expr ++ ns.map Node.id).Perm (NodeId.between c d)
  ordered : ∀ n ∈ ns, n.Ordered

theorem Numbered.exprs_eq {c d : Counts} {slots : List Slot} (h : Numbered c slots d) :
    d.exprs = c.exprs + exprsMade slots := by
  induction h with
  | nil => rfl
  | target _ ih | expr _ _ ih =>
    simp only [exprsMade, List.countP_cons, Slot.isExpr] at ih ⊢
    simp [ih]
    omega
  | stmt _ _ ih => simpa [exprsMade, Slot.isExpr] using ih

theorem Numbered.target_eq {c d : Counts} (h : Numbered c [.target] d) :
    d = ⟨c.exprs + 1, c.stmts⟩ := by
  cases h with
  | target tail => cases tail; rfl

theorem Numbered.split {b d : Counts} {l k : List Slot} (h : Numbered b (l ++ k) d) :
    ∃ c, Numbered b l c ∧ Numbered c k d := by
  induction l generalizing b with
  | nil => exact ⟨b, .nil, h⟩
  | cons slot l ih =>
    cases h with
    | target tail =>
      obtain ⟨c, hl, hk⟩ := ih tail
      exact ⟨c, .target hl, hk⟩
    | expr number tail =>
      obtain ⟨c, hl, hk⟩ := ih tail
      exact ⟨c, .expr number hl, hk⟩
    | stmt number tail =>
      obtain ⟨c, hl, hk⟩ := ih tail
      exact ⟨c, .stmt number hl, hk⟩

namespace Grown

variable {b c d : Counts} {left left' : List Nat} {ms ns : List Node}

theorem nil : Grown c [] [] c :=
  ⟨Nat.le_refl _, Nat.le_refl _, by simp [leftNumbers, NodeId.between], by simp⟩

theorem append (hm : Grown b left ms c) (hn : Grown c left' ns d) :
    Grown b (left ++ left') (ms ++ ns) d where
  exprs_le := Nat.le_trans hm.exprs_le hn.exprs_le
  stmts_le := Nat.le_trans hm.stmts_le hn.stmts_le
  ids := by
    refine .trans ?_ ((hm.ids.append hn.ids).trans
      (NodeId.between_append ⟨hm.exprs_le, hm.stmts_le⟩ ⟨hn.exprs_le, hn.stmts_le⟩))
    refine List.perm_iff_count.2 fun q => ?_
    simp only [leftNumbers, List.filterMap_append, List.map_append, List.count_append]
    omega
  ordered n h := (List.mem_append.1 h).elim (hm.ordered n) (hn.ordered n)

theorem mem_between {n : Node} (h : Grown c left ns d) (hn : n ∈ ns) : n.id ∈ NodeId.between c d :=
  h.ids.mem_iff.1 (List.mem_append_right _ (List.mem_map_of_mem hn))

/-- All numbers are different. -/
theorem nodup (h : Grown c left ns d) :
    (left ++ leftNumbers ns).Nodup ∧ (ns.map Node.id).Nodup ∧
      ∀ i ∈ left ++ leftNumbers ns, ∀ n ∈ ns, n.id ≠ .expr i := by
  have hnodup := h.ids.nodup_iff.2 (NodeId.nodup_between c d)
  obtain ⟨hleft, hids, hdisjoint⟩ := List.nodup_append.1 hnodup
  refine ⟨hleft.of_map _, hids, fun i hi n hn heq => ?_⟩
  exact hdisjoint _ (List.mem_map_of_mem hi) _ (List.mem_map_of_mem hn) heq.symm

/-- Every number is that of a node or of a left side. -/
theorem exists_of_mem_between (h : Grown c left ns d) {q : NodeId} (hq : q ∈ NodeId.between c d) :
    (∃ i ∈ left ++ leftNumbers ns, q = .expr i) ∨ ∃ n ∈ ns, n.id = q := by
  rcases List.mem_append.1 (h.ids.mem_iff.2 hq) with hq | hq
  · obtain ⟨i, hi, rfl⟩ := List.mem_map.1 hq
    exact .inl ⟨i, hi, rfl⟩
  · exact .inr (List.mem_map.1 hq)

/-- A left side whose assignment is not known yet. -/
theorem target : Grown c [c.exprs] [] ⟨c.exprs + 1, c.stmts⟩ :=
  ⟨by simp, by simp, by simp [leftNumbers, NodeId.between], by simp⟩

/-- A node is made after all that is below it and after its left side. -/
theorem root {n : Node} (h : Grown b left ns c) (hn : Numbered c [.node n] d)
    (hnodes : n.nodes = n :: ns) (hleft : (n.left?.map LeftSide.number).toList = left)
    (hordered : ∀ l ∈ n.left?, ∀ m ∈ l.children.flatMap Node.nodes,
      m.id.Precedes (.expr l.number)) : Grown b [] n.nodes d := by
  have hbelow : n.children.flatMap Node.nodes = ns := by
    rw [n.nodes_eq] at hnodes
    exact (List.cons.inj hnodes).2
  have hids : (leftNumbers n.nodes).map NodeId.expr ++ n.nodes.map Node.id =
      ((n.left?.map LeftSide.number).toList ++ leftNumbers ns).map NodeId.expr ++
        n.id :: ns.map Node.id := by
    rw [hnodes]
    cases hl : n.left? <;> simp [leftNumbers, hl]
  have hlast : NodeId.between c d = [n.id] ∧ c.exprs ≤ d.exprs ∧ c.stmts ≤ d.stmts := by
    cases hn with
    | expr number tail =>
      cases tail
      simp [NodeId.between, Node.id, number]
    | stmt number tail =>
      cases tail
      simp [NodeId.between, Node.id, number]
  refine ⟨Nat.le_trans h.exprs_le hlast.2.1, Nat.le_trans h.stmts_le hlast.2.2, ?_, ?_⟩
  · have hgrown := h.ids.append_right (NodeId.between c d)
    rw [List.nil_append, hids, hleft]
    refine .trans ?_ (hgrown.trans (NodeId.between_append ⟨h.exprs_le, h.stmts_le⟩ hlast.2))
    rw [hlast.1, List.append_assoc]
    exact (List.perm_append_singleton _ _).symm.append_left _
  · intro m hm
    rw [hnodes] at hm
    rcases List.mem_cons.1 hm with rfl | hm
    · refine ⟨fun k hk => ?_, hordered⟩
      have hk := h.mem_between (hbelow ▸ hk)
      cases hn with
      | expr number _ => cases k <;> simp_all [Node.id, NodeId.Precedes]
      | stmt number _ => cases k <;> simp_all [Node.id, NodeId.Precedes]
    · exact h.ordered m hm

end Grown

mutual

theorem Expr.grown (e : Expr) {c d : Counts} (h : Numbered c e.slots d) : Grown c [] e.nodes d := by
  cases e with
  | literal | var => exact .root .nil h rfl rfl nofun
  | group _ e | unary _ _ e | get _ e _ =>
    obtain ⟨_, he, hroot⟩ := Numbered.split h
    exact .root (e.grown he) hroot rfl rfl nofun
  | binary _ e _ e' | logical _ e _ e' =>
    obtain ⟨_, h, hroot⟩ := Numbered.split h
    obtain ⟨_, he, he'⟩ := Numbered.split h
    exact .root ((e.grown he).append (e'.grown he')) hroot rfl rfl nofun
  | assign m x e =>
    obtain ⟨c', h, hroot⟩ := Numbered.split h
    obtain ⟨_, htarget, he⟩ := Numbered.split (l := [.target]) h
    obtain rfl := htarget.target_eq
    have hnumber : m.number = c'.exprs := by cases hroot; assumption
    have hmade := he.exprs_eq
    refine .root (Grown.target.append (e.grown he)) hroot rfl ?_ ?_
    · simp [Node.left?, Expr.left?, hnumber, hmade]
    · simp [Node.left?, Expr.left?, LeftSide.children]
  | call _ f args =>
    obtain ⟨_, h, hroot⟩ := Numbered.split h
    obtain ⟨_, hf, hargs⟩ := Numbered.split h
    exact .root ((f.grown hf).append (grown_each args hargs)) hroot rfl rfl nofun
  | lambda _ _ body =>
    obtain ⟨_, hbody, hroot⟩ := Numbered.split h
    exact .root (grown_all body hbody) hroot rfl rfl nofun
  | set m e x e' =>
    obtain ⟨c', h, hroot⟩ := Numbered.split h
    obtain ⟨_, h, he'⟩ := Numbered.split h
    obtain ⟨b, he, htarget⟩ := Numbered.split h
    obtain rfl := htarget.target_eq
    have hnumber : m.number = c'.exprs := by cases hroot; assumption
    have hmade := he'.exprs_eq
    have hplace : m.number - exprsMade e'.slots - 1 = b.exprs := by
      simp [hnumber, hmade]
    have hobject := (e.grown he).append .target
    simp only [List.append_nil, List.nil_append] at hobject
    refine .root (hobject.append (e'.grown he')) hroot rfl ?_ ?_
    · simp [Node.left?, Expr.left?, hplace]
    · rintro l ⟨⟩ k hk
      have hk : k ∈ e.nodes := by simpa [LeftSide.children, Node.nodes] using hk
      have hk := (e.grown he).mem_between hk
      rw [hplace]
      cases k <;> simp_all [Node.id, NodeId.Precedes]

theorem grown_each (es : List Expr) {c d : Counts} (h : Numbered c (slotsEach es) d) :
    Grown c [] (nodesEach es) d := by
  cases es with
  | nil => cases h; exact .nil
  | cons e es =>
    obtain ⟨_, he, hes⟩ := Numbered.split h
    exact (e.grown he).append (grown_each es hes)

theorem grown_option (e : Option Expr) {c d : Counts} (h : Numbered c (slotsOption e) d) :
    Grown c [] (nodesOption e) d := by
  cases e with
  | none => cases h; exact .nil
  | some e => exact e.grown h

theorem Stmt.grown (s : Stmt) {c d : Counts} (h : Numbered c s.slots d) : Grown c [] s.nodes d := by
  cases s with
  | expression _ e | print _ e =>
    obtain ⟨_, he, hroot⟩ := Numbered.split h
    exact .root (e.grown he) hroot rfl rfl nofun
  | varDecl _ _ e | returns _ e | breaks _ e =>
    obtain ⟨_, he, hroot⟩ := Numbered.split h
    exact .root (grown_option e he) hroot rfl rfl nofun
  | block _ body | funDecl _ _ _ body =>
    obtain ⟨_, hbody, hroot⟩ := Numbered.split h
    exact .root (grown_all body hbody) hroot rfl rfl nofun
  | ifElse _ c t e =>
    obtain ⟨_, h, hroot⟩ := Numbered.split h
    obtain ⟨_, h, he⟩ := Numbered.split h
    obtain ⟨_, hc, ht⟩ := Numbered.split h
    exact .root (((c.grown hc).append (t.grown ht)).append (grown_else e he)) hroot rfl rfl nofun
  | whileDo _ c b =>
    obtain ⟨_, h, hroot⟩ := Numbered.split h
    obtain ⟨_, hc, hb⟩ := Numbered.split h
    exact .root ((c.grown hc).append (b.grown hb)) hroot rfl rfl nofun
  | classDecl => exact .root .nil h rfl rfl nofun

theorem grown_else (s : Option Stmt) {c d : Counts} (h : Numbered c (slotsElse s) d) :
    Grown c [] (nodesElse s) d := by
  cases s with
  | none => cases h; exact .nil
  | some s => exact s.grown h

theorem grown_all (ss : List Stmt) {c d : Counts} (h : Numbered c (slotsAll ss) d) :
    Grown c [] (nodesAll ss) d := by
  cases ss with
  | nil => cases h; exact .nil
  | cons s ss =>
    obtain ⟨_, hs, hss⟩ := Numbered.split h
    exact (s.grown hs).append (grown_all ss hss)

end

end Lox
