import Lox.Proofs.Nodes

/-!
# Arenas

The nodes of a program can be kept in tables, one for each sort of node, in the order in which they
are made. In an entry, numbers stand for the nodes below it, and segments of further tables for its
lists. So an entry says something in its own arena only, and a number or a segment may lead out of
the tables.

* `Arena`, `FlatExpr`, `FlatStmt`, `Segment`: the tables and their entries;
* `Arena.expr?`, `Arena.stmt?`: the tree at a number, if no number or segment below it leads out;
* `Slot`, `Expr.slots`, `Stmt.slots`: what is made for a tree, in order;
* `Arena.add`, `Program.arena`: the tables that are filled so;
* `Arena.Holds`: the entry of a node is where its number says;
* `Numbered`, `Numbered.holds`: nodes that are numbered in order are held;
* `Arena.reads_of_holds`: what is held with all nodes below it is read back.
-/

namespace Lox

/-! ### Tables -/

/-- A part of a table. -/
structure Segment where
  start : Nat
  length : Nat
  deriving DecidableEq, Repr

/-- The entries of a segment, all of which have to be in the table. -/
def Segment.slice {α : Type} (r : Segment) (table : List α) : Option (List α) :=
  if r.start + r.length ≤ table.length then some ((table.drop r.start).take r.length) else none

/-- An expression without the nodes below it. -/
inductive FlatExpr
  | literal (value : Literal)
  | group (inner : Nat)
  | unary (op : UnaryOp) (operand : Nat)
  | binary (left : Nat) (op : BinaryOp) (right : Nat)
  | logical (left : Nat) (op : LogicalOp) (right : Nat)
  | var (name : String)
  | assign (name : String) (value : Nat)
  | call (callee : Nat) (args : Segment)
  | lambda (params body : Segment)
  | get (object : Nat) (name : String)
  | set (object : Nat) (name : String) (value : Nat)

/-- A statement without the nodes below it. -/
inductive FlatStmt
  | expression (value : Nat)
  | print (value : Nat)
  | varDecl (name : String) (value : Option Nat)
  | block (body : Segment)
  | ifElse (condition thenBranch : Nat) (elseBranch : Option Nat)
  | whileDo (condition body : Nat)
  | funDecl (name : String) (params body : Segment)
  | returns (value : Option Nat)
  | breaks (value : Option Nat)
  | classDecl (name : String)

/-- The tables of a program: expressions and statements with their spans, and the lists of
arguments, statements and parameters. An expression that became the target of an assignment is in no
tree, and its place is empty. -/
structure Arena where
  exprs : List (Option (FlatExpr × Span))
  stmts : List (FlatStmt × Span)
  args : List Nat
  bodies : List Nat
  params : List String

/-- How many expressions and statements were made. -/
structure Counts where
  exprs : Nat
  stmts : Nat
  deriving DecidableEq, Repr

namespace Arena

/-- The arena without entries. -/
def empty : Arena := ⟨[], [], [], [], []⟩

/-- The sizes of the tables of nodes. -/
def counts (a : Arena) : Counts := ⟨a.exprs.length, a.stmts.length⟩

/-! ### Reading -/

mutual

/-- The expression at a number, which goes down less than `fuel` nodes. -/
def expr? (a : Arena) : (fuel : Nat) → Nat → Option Expr
  | 0, _ => none
  | fuel + 1, i =>
    match a.exprs[i]? with
    | some (some (.literal v, s)) => some (.literal ⟨i, s⟩ v)
    | some (some (.group e, s)) => do return .group ⟨i, s⟩ (← a.expr? fuel e)
    | some (some (.unary op e, s)) => do return .unary ⟨i, s⟩ op (← a.expr? fuel e)
    | some (some (.binary l op r, s)) => do
      return .binary ⟨i, s⟩ (← a.expr? fuel l) op (← a.expr? fuel r)
    | some (some (.logical l op r, s)) => do
      return .logical ⟨i, s⟩ (← a.expr? fuel l) op (← a.expr? fuel r)
    | some (some (.var x, s)) => some (.var ⟨i, s⟩ x)
    | some (some (.assign x e, s)) => do return .assign ⟨i, s⟩ x (← a.expr? fuel e)
    | some (some (.call f args, s)) => do
      return .call ⟨i, s⟩ (← a.expr? fuel f) (← (← args.slice a.args).mapM (a.expr? fuel))
    | some (some (.lambda params body, s)) => do
      return .lambda ⟨i, s⟩ (← params.slice a.params)
        (← (← body.slice a.bodies).mapM (a.stmt? fuel))
    | some (some (.get e x, s)) => do return .get ⟨i, s⟩ (← a.expr? fuel e) x
    | some (some (.set e x v, s)) => do
      return .set ⟨i, s⟩ (← a.expr? fuel e) x (← a.expr? fuel v)
    | _ => none

/-- The statement at a number, which goes down less than `fuel` nodes. -/
def stmt? (a : Arena) : (fuel : Nat) → Nat → Option Stmt
  | 0, _ => none
  | fuel + 1, i =>
    match a.stmts[i]? with
    | some (.expression e, s) => do return .expression ⟨i, s⟩ (← a.expr? fuel e)
    | some (.print e, s) => do return .print ⟨i, s⟩ (← a.expr? fuel e)
    | some (.varDecl x e, s) => do return .varDecl ⟨i, s⟩ x (← e.mapM (a.expr? fuel))
    | some (.block body, s) => do
      return .block ⟨i, s⟩ (← (← body.slice a.bodies).mapM (a.stmt? fuel))
    | some (.ifElse c t e, s) => do
      return .ifElse ⟨i, s⟩ (← a.expr? fuel c) (← a.stmt? fuel t) (← e.mapM (a.stmt? fuel))
    | some (.whileDo c b, s) => do
      return .whileDo ⟨i, s⟩ (← a.expr? fuel c) (← a.stmt? fuel b)
    | some (.funDecl x params body, s) => do
      return .funDecl ⟨i, s⟩ x (← params.slice a.params)
        (← (← body.slice a.bodies).mapM (a.stmt? fuel))
    | some (.returns e, s) => do return .returns ⟨i, s⟩ (← e.mapM (a.expr? fuel))
    | some (.breaks e, s) => do return .breaks ⟨i, s⟩ (← e.mapM (a.expr? fuel))
    | some (.classDecl x, s) => some (.classDecl ⟨i, s⟩ x)
    | none => none

end

/-- The statements of a segment, each of which goes down less than `fuel` nodes. -/
def body? (a : Arena) (fuel : Nat) (r : Segment) : Option (List Stmt) := do
  (← r.slice a.bodies).mapM (a.stmt? fuel)

end Arena

/-! ### What is made -/

/-- What takes a place in the tables: a node, or an expression that becomes the target of an
assignment. -/
inductive Slot
  | node (n : Node)
  | target

mutual

/-- What is made for an expression: the nodes below a node before the node, from left to right, and
the target of an assignment before its value. -/
def Expr.slots : Expr → List Slot
  | .literal m v => [.node (.expr (.literal m v))]
  | .group m e => e.slots ++ [.node (.expr (.group m e))]
  | .unary m op e => e.slots ++ [.node (.expr (.unary m op e))]
  | .binary m l op r => l.slots ++ r.slots ++ [.node (.expr (.binary m l op r))]
  | .logical m l op r => l.slots ++ r.slots ++ [.node (.expr (.logical m l op r))]
  | .var m x => [.node (.expr (.var m x))]
  | .assign m x e => .target :: e.slots ++ [.node (.expr (.assign m x e))]
  | .call m f args => f.slots ++ slotsEach args ++ [.node (.expr (.call m f args))]
  | .lambda m params body => slotsAll body ++ [.node (.expr (.lambda m params body))]
  | .get m e x => e.slots ++ [.node (.expr (.get m e x))]
  | .set m e x v => e.slots ++ [.target] ++ v.slots ++ [.node (.expr (.set m e x v))]

/-- What is made for expressions. -/
def slotsEach : List Expr → List Slot
  | [] => []
  | e :: es => e.slots ++ slotsEach es

/-- What is made for an expression that may be missing. -/
def slotsOption : Option Expr → List Slot
  | none => []
  | some e => e.slots

/-- What is made for a statement. -/
def Stmt.slots : Stmt → List Slot
  | .expression m e => e.slots ++ [.node (.stmt (.expression m e))]
  | .print m e => e.slots ++ [.node (.stmt (.print m e))]
  | .varDecl m x e => slotsOption e ++ [.node (.stmt (.varDecl m x e))]
  | .block m body => slotsAll body ++ [.node (.stmt (.block m body))]
  | .ifElse m c t e => c.slots ++ t.slots ++ slotsElse e ++ [.node (.stmt (.ifElse m c t e))]
  | .whileDo m c b => c.slots ++ b.slots ++ [.node (.stmt (.whileDo m c b))]
  | .funDecl m x params body => slotsAll body ++ [.node (.stmt (.funDecl m x params body))]
  | .returns m e => slotsOption e ++ [.node (.stmt (.returns m e))]
  | .breaks m e => slotsOption e ++ [.node (.stmt (.breaks m e))]
  | .classDecl m x => [.node (.stmt (.classDecl m x))]

/-- What is made for a branch that may be missing. -/
def slotsElse : Option Stmt → List Slot
  | none => []
  | some s => s.slots

/-- What is made for statements. -/
def slotsAll : List Stmt → List Slot
  | [] => []
  | s :: ss => s.slots ++ slotsAll ss

end

theorem slotsEach_append (es es' : List Expr) :
    slotsEach (es ++ es') = slotsEach es ++ slotsEach es' := by
  induction es with
  | nil => rfl
  | cons e es ih => simp [slotsEach, ih]

theorem slotsAll_append (ss ss' : List Stmt) :
    slotsAll (ss ++ ss') = slotsAll ss ++ slotsAll ss' := by
  induction ss with
  | nil => rfl
  | cons s ss ih => simp [slotsAll, ih]

/-- What takes a place, if it is a node. -/
def Slot.node? : Slot → Option Node
  | node n => some n
  | target => none

/-- The nodes among what is made are certain ones. -/
def AllMade (ns : List Node) (slots : List Slot) : Prop := (slots.filterMap Slot.node?).Perm ns

namespace AllMade

variable {ms ns : List Node} {l k : List Slot}

theorem mem_iff (h : AllMade ns l) (n : Node) : .node n ∈ l ↔ n ∈ ns := by
  rw [← List.Perm.mem_iff h, List.mem_filterMap]
  constructor
  · exact fun hn => ⟨_, hn, rfl⟩
  · rintro ⟨slot, hslot, hn⟩
    cases slot with
    | node => exact Option.some.inj hn ▸ hslot
    | target => cases hn

theorem nil : AllMade [] [] := .refl _

theorem append (hm : AllMade ms l) (hn : AllMade ns k) : AllMade (ms ++ ns) (l ++ k) := by
  rw [AllMade, List.filterMap_append]
  exact List.Perm.append hm hn

/-- A root is made last. -/
theorem root {r : Node} (h : AllMade ns l) : AllMade (r :: ns) (l ++ [.node r]) := by
  rw [AllMade, List.filterMap_append]
  exact List.perm_append_singleton r _ |>.trans (List.Perm.cons r h)

theorem target : AllMade [] [.target] := .refl _

end AllMade

mutual

theorem Expr.allMade (e : Expr) : AllMade e.nodes e.slots := by
  cases e with
  | literal | var => exact .root (l := []) .nil
  | group _ e | unary _ _ e | get _ e _ => exact .root e.allMade
  | assign _ _ e => exact .root (AllMade.target.append e.allMade)
  | binary _ e _ e' | logical _ e _ e' => exact .root (e.allMade.append e'.allMade)
  | call _ f args => exact .root (f.allMade.append (allMade_each args))
  | lambda _ _ body => exact .root (allMade_all body)
  | set _ e _ e' =>
    have he : AllMade e.nodes (e.slots ++ [.target]) := by simpa using e.allMade.append .target
    exact .root (he.append e'.allMade)

theorem allMade_each (es : List Expr) : AllMade (nodesEach es) (slotsEach es) := by
  cases es with
  | nil => exact .nil
  | cons e es => exact e.allMade.append (allMade_each es)

theorem allMade_option (e : Option Expr) : AllMade (nodesOption e) (slotsOption e) := by
  cases e with
  | none => exact .nil
  | some e => exact e.allMade

theorem Stmt.allMade (s : Stmt) : AllMade s.nodes s.slots := by
  cases s with
  | expression _ e | print _ e => exact .root e.allMade
  | varDecl _ _ e | returns _ e | breaks _ e => exact .root (allMade_option e)
  | block _ body | funDecl _ _ _ body => exact .root (allMade_all body)
  | ifElse _ c t e => exact .root ((c.allMade.append t.allMade).append (allMade_else e))
  | whileDo _ c b => exact .root (c.allMade.append b.allMade)
  | classDecl => exact .root (l := []) .nil

theorem allMade_else (s : Option Stmt) : AllMade (nodesElse s) (slotsElse s) := by
  cases s with
  | none => exact .nil
  | some s => exact s.allMade

theorem allMade_all (ss : List Stmt) : AllMade (nodesAll ss) (slotsAll ss) := by
  cases ss with
  | nil => exact .nil
  | cons s ss => exact s.allMade.append (allMade_all ss)

end

/-! ### Filling the tables -/

/-- The segments of the lists of a node. -/
structure Segments where
  args : Segment
  params : Segment
  body : Segment

/-- The entry of an expression. -/
def Expr.flat (r : Segments) : Expr → FlatExpr
  | literal _ v => .literal v
  | group _ e => .group e.mark.number
  | unary _ op e => .unary op e.mark.number
  | binary _ e op e' => .binary e.mark.number op e'.mark.number
  | logical _ e op e' => .logical e.mark.number op e'.mark.number
  | var _ x => .var x
  | assign _ x e => .assign x e.mark.number
  | call _ f _ => .call f.mark.number r.args
  | lambda _ _ _ => .lambda r.params r.body
  | get _ e x => .get e.mark.number x
  | set _ e x v => .set e.mark.number x v.mark.number

/-- The entry of a statement. -/
def Stmt.flat (r : Segments) : Stmt → FlatStmt
  | expression _ e => .expression e.mark.number
  | print _ e => .print e.mark.number
  | varDecl _ x e => .varDecl x (e.map (·.mark.number))
  | block _ _ => .block r.body
  | ifElse _ c t e => .ifElse c.mark.number t.mark.number (e.map (·.mark.number))
  | whileDo _ c b => .whileDo c.mark.number b.mark.number
  | funDecl _ x _ _ => .funDecl x r.params r.body
  | returns _ e => .returns (e.map (·.mark.number))
  | breaks _ e => .breaks (e.map (·.mark.number))
  | classDecl _ x => .classDecl x

/-- The numbers of the arguments of a node. -/
def Node.args : Node → List Nat
  | expr (.call _ _ args) => args.map (·.mark.number)
  | _ => []

/-- The parameters of a node. -/
def Node.params : Node → List String
  | expr (.lambda _ params _) | stmt (.funDecl _ _ params _) => params
  | _ => []

/-- The numbers of the statements in the body of a node. -/
def Node.body : Node → List Nat
  | expr (.lambda _ _ body) | stmt (.funDecl _ _ _ body) | stmt (.block _ body) =>
    body.map (·.mark.number)
  | _ => []

namespace Arena

/-- The segments behind the ends of the tables of lists. -/
def segments (a : Arena) (n : Node) : Segments :=
  ⟨⟨a.args.length, n.args.length⟩, ⟨a.params.length, n.params.length⟩,
    ⟨a.bodies.length, n.body.length⟩⟩

/-- The arena with an entry for what is made next, behind its lists. -/
def add (a : Arena) : Slot → Arena
  | .target => { a with exprs := a.exprs ++ [none] }
  | .node n =>
    let r := a.segments n
    let a := { a with
      args := a.args ++ n.args
      params := a.params ++ n.params
      bodies := a.bodies ++ n.body }
    match n with
    | .expr e => { a with exprs := a.exprs ++ [some (e.flat r, e.span)] }
    | .stmt s => { a with stmts := a.stmts ++ [(s.flat r, s.span)] }

/-- The arena with entries for all that is made next. -/
def addAll (a : Arena) (slots : List Slot) : Arena := slots.foldl add a

end Arena

/-- The arena of a program. -/
def Program.arena (p : Program) : Arena := Arena.empty.addAll (slotsAll p.statements)

/-! ### Entries -/

namespace Arena

variable {a b c : Arena}

/-- An arena that has grown. -/
structure Extends (a b : Arena) : Prop where
  exprs : a.exprs <+: b.exprs
  stmts : a.stmts <+: b.stmts
  args : a.args <+: b.args
  bodies : a.bodies <+: b.bodies
  params : a.params <+: b.params

theorem Extends.refl (a : Arena) : a.Extends a :=
  ⟨List.prefix_refl _, List.prefix_refl _, List.prefix_refl _, List.prefix_refl _,
    List.prefix_refl _⟩

theorem Extends.trans (h : a.Extends b) (h' : b.Extends c) : a.Extends c :=
  ⟨h.exprs.trans h'.exprs, h.stmts.trans h'.stmts, h.args.trans h'.args,
    h.bodies.trans h'.bodies, h.params.trans h'.params⟩

/-- The entry of a node, with certain segments, is where its number says. -/
def HasEntry (a : Arena) (r : Segments) : Node → Prop
  | .expr e => a.exprs[e.mark.number]? = some (some (e.flat r, e.span))
  | .stmt s => a.stmts[s.mark.number]? = some (s.flat r, s.span)

/-- The entry of a node is where its number says, and its lists are where the segments of the entry
say. -/
structure HoldsAt (a : Arena) (r : Segments) (n : Node) : Prop where
  entry : a.HasEntry r n
  args : r.args.slice a.args = some n.args
  params : r.params.slice a.params = some n.params
  body : r.body.slice a.bodies = some n.body

/-- A node has an entry and lists. -/
def Holds (a : Arena) (n : Node) : Prop := ∃ r, a.HoldsAt r n

theorem extends_add (a : Arena) (slot : Slot) : a.Extends (a.add slot) := by
  have hgrow {α : Type} (l m : List α) : l <+: l ++ m := List.prefix_append l m
  have hrefl {α : Type} (l : List α) : l <+: l := List.prefix_refl l
  cases slot with
  | target => exact ⟨hgrow _ _, hrefl _, hrefl _, hrefl _, hrefl _⟩
  | node n =>
    cases n with
    | expr e => exact ⟨hgrow _ _, hrefl _, hgrow _ _, hgrow _ _, hgrow _ _⟩
    | stmt s => exact ⟨hrefl _, hgrow _ _, hgrow _ _, hgrow _ _, hgrow _ _⟩

theorem extends_addAll (a : Arena) (slots : List Slot) : a.Extends (a.addAll slots) := by
  induction slots generalizing a with
  | nil => exact .refl a
  | cons slot slots ih => exact (a.extends_add slot).trans (ih (a.add slot))

end Arena

theorem Segment.slice_mono {α : Type} {r : Segment} {table table' xs : List α}
    (h : r.slice table = some xs) (hle : table <+: table') : r.slice table' = some xs := by
  obtain ⟨rest, rfl⟩ := hle
  rw [slice] at h ⊢
  split at h
  · next hbound =>
    cases h
    rw [if_pos (by simpa using Nat.le_trans hbound (Nat.le_add_right _ _)),
      List.drop_append_of_le_length (by omega), List.take_append_of_le_length (by simp; omega)]
  · cases h

/-- A list is where it was put, behind the end of a table. -/
theorem Segment.slice_append {α : Type} (table xs : List α) :
    (Segment.mk table.length xs.length).slice (table ++ xs) = some xs := by
  simp [slice]

namespace Arena

variable {a b : Arena}

theorem HoldsAt.mono {r : Segments} {n : Node} (h : a.HoldsAt r n) (hle : a.Extends b) :
    b.HoldsAt r n where
  entry := by
    have hentry := h.entry
    cases n with
    | expr e =>
      obtain ⟨hi, hslot⟩ := List.getElem?_eq_some_iff.1 hentry
      exact (List.prefix_iff_getElem?.1 hle.exprs _ hi).trans (congrArg some hslot)
    | stmt s =>
      obtain ⟨hi, hslot⟩ := List.getElem?_eq_some_iff.1 hentry
      exact (List.prefix_iff_getElem?.1 hle.stmts _ hi).trans (congrArg some hslot)
  args := Segment.slice_mono h.args hle.args
  params := Segment.slice_mono h.params hle.params
  body := Segment.slice_mono h.body hle.bodies

theorem Holds.mono {n : Node} (h : a.Holds n) (hle : a.Extends b) : b.Holds n := by
  obtain ⟨r, h⟩ := h
  exact ⟨r, h.mono hle⟩

/-- A node whose number is the next one is held once it has been added. -/
theorem holds_add {n : Node} (h : match n with
    | .expr e => e.mark.number = a.exprs.length
    | .stmt s => s.mark.number = a.stmts.length) : (a.add (.node n)).Holds n := by
  have hargs := Segment.slice_append a.args n.args
  have hparams := Segment.slice_append a.params n.params
  have hbody := Segment.slice_append a.bodies n.body
  cases n with
  | expr e => exact ⟨a.segments (.expr e), by simp [HasEntry, add, h], hargs, hparams, hbody⟩
  | stmt s => exact ⟨a.segments (.stmt s), by simp [HasEntry, add, h], hargs, hparams, hbody⟩

end Arena

/-! ### Numbering -/

/-- Nodes have the numbers of their places in the tables, if so many were made before. -/
inductive Numbered : Counts → List Slot → Counts → Prop
  | nil {c : Counts} : Numbered c [] c
  | target {c d : Counts} {slots : List Slot} (tail : Numbered ⟨c.exprs + 1, c.stmts⟩ slots d) :
    Numbered c (.target :: slots) d
  | expr {c d : Counts} {e : Expr} {slots : List Slot} (number : e.mark.number = c.exprs)
    (tail : Numbered ⟨c.exprs + 1, c.stmts⟩ slots d) : Numbered c (.node (.expr e) :: slots) d
  | stmt {c d : Counts} {s : Stmt} {slots : List Slot} (number : s.mark.number = c.stmts)
    (tail : Numbered ⟨c.exprs, c.stmts + 1⟩ slots d) : Numbered c (.node (.stmt s) :: slots) d

namespace Numbered

variable {b c d : Counts} {slots slots' : List Slot}

theorem append (h : Numbered b slots c) (h' : Numbered c slots' d) :
    Numbered b (slots ++ slots') d := by
  induction h with
  | nil => exact h'
  | target _ ih => exact .target (ih h')
  | expr number _ ih => exact .expr number (ih h')
  | stmt number _ ih => exact .stmt number (ih h')

/-- The expression that was made last can become a target. -/
theorem retarget {e : Expr} (h : Numbered c (slots ++ [.node (.expr e)]) d) :
    Numbered c (slots ++ [.target]) d := by
  induction slots generalizing c with
  | nil =>
    cases h with
    | expr _ tail => exact .target tail
  | cons slot slots ih =>
    cases h with
    | target tail => exact .target (ih tail)
    | expr number tail => exact .expr number (ih tail)
    | stmt number tail => exact .stmt number (ih tail)

/-- An arena of the right size, to which nodes are added that are numbered in order, holds them. -/
theorem holds (h : Numbered c slots d) {a : Arena} (ha : a.counts = c) :
    (a.addAll slots).counts = d ∧ ∀ n, .node n ∈ slots → (a.addAll slots).Holds n := by
  induction h generalizing a with
  | nil => exact ⟨ha, by simp⟩
  | target _ ih =>
    obtain ⟨hcounts, hholds⟩ := ih (a := a.add .target) (by simp [Arena.counts, Arena.add, ← ha])
    exact ⟨hcounts, fun n hn => hholds n (by simpa using hn)⟩
  | @expr c d e slots number _ ih =>
    obtain ⟨hcounts, hholds⟩ :=
      ih (a := a.add (.node (.expr e))) (by simp [Arena.counts, Arena.add, ← ha])
    refine ⟨hcounts, fun n hn => ?_⟩
    rcases List.mem_cons.1 hn with hn | hn
    · cases hn
      have hnew := Arena.holds_add (a := a) (n := .expr e) (by simp [number, ← ha, Arena.counts])
      exact hnew.mono (Arena.extends_addAll _ _)
    · exact hholds n hn
  | @stmt c d s slots number _ ih =>
    obtain ⟨hcounts, hholds⟩ :=
      ih (a := a.add (.node (.stmt s))) (by simp [Arena.counts, Arena.add, ← ha])
    refine ⟨hcounts, fun n hn => ?_⟩
    rcases List.mem_cons.1 hn with hn | hn
    · cases hn
      have hnew := Arena.holds_add (a := a) (n := .stmt s) (by simp [number, ← ha, Arena.counts])
      exact hnew.mono (Arena.extends_addAll _ _)
    · exact hholds n hn

end Numbered

/-- If the nodes of a program are numbered in order, its arena holds them. -/
theorem Program.arena_holds {p : Program}
    (h : Numbered ⟨0, 0⟩ (slotsAll p.statements) ⟨p.exprCount, p.stmtCount⟩) :
    p.arena.counts = ⟨p.exprCount, p.stmtCount⟩ ∧ ∀ n ∈ p.nodes, p.arena.Holds n := by
  obtain ⟨hcounts, hholds⟩ := h.holds (a := .empty) rfl
  exact ⟨hcounts, fun n hn => hholds n (((allMade_all p.statements).mem_iff n).2 hn)⟩

/-! ### Reading back -/

/-- The tree under a node is read at the number of the node, with any fuel from some amount on. -/
def Arena.Reads (a : Arena) : Node → Prop
  | .expr e => ∃ enough, ∀ fuel ≥ enough, a.expr? fuel e.mark.number = some e
  | .stmt s => ∃ enough, ∀ fuel ≥ enough, a.stmt? fuel s.mark.number = some s

theorem Expr.sizeOf_pos (e : Expr) : 0 < sizeOf e := by
  cases e <;> simp +arith

theorem Stmt.sizeOf_pos (s : Stmt) : 0 < sizeOf s := by
  cases s <;> simp +arith

section Reading

variable {a : Arena}

mutual

theorem Expr.read_of_holds (e : Expr) (h : ∀ n ∈ e.nodes, a.Holds n) {fuel : Nat}
    (hfuel : sizeOf e ≤ fuel) : a.expr? fuel e.mark.number = some e := by
  obtain ⟨fuel, rfl⟩ := Nat.exists_eq_add_of_le' (Nat.le_trans e.sizeOf_pos hfuel)
  obtain ⟨r, hroot⟩ := h (.expr e) e.mem_nodes
  have hentry : a.exprs[e.mark.number]? = some (some (e.flat r, e.span)) := hroot.entry
  rw [Arena.expr?, hentry]
  cases e with
  | literal | var => rfl
  | group m e | unary m _ e | assign m _ e | get m e _ =>
    obtain ⟨-, he⟩ := List.forall_mem_cons.1 h
    have he := e.read_of_holds he (by simp at hfuel; omega : sizeOf e ≤ fuel)
    simp only [Expr.flat, he]
    rfl
  | binary m e _ e' | logical m e _ e' | set m e _ e' =>
    obtain ⟨-, h⟩ := List.forall_mem_cons.1 h
    obtain ⟨he, he'⟩ := List.forall_mem_append.1 h
    have he := e.read_of_holds he (by simp at hfuel; omega : sizeOf e ≤ fuel)
    have he' := e'.read_of_holds he' (by simp at hfuel; omega : sizeOf e' ≤ fuel)
    simp only [Expr.flat, he, he']
    rfl
  | call m f args =>
    obtain ⟨-, h⟩ := List.forall_mem_cons.1 h
    obtain ⟨hf, hargs⟩ := List.forall_mem_append.1 h
    have hf := f.read_of_holds hf (by simp at hfuel; omega : sizeOf f ≤ fuel)
    have hargs := read_each args hargs (by simp at hfuel; omega : sizeOf args ≤ fuel)
    have hslice : r.args.slice a.args = some (args.map (·.mark.number)) := hroot.args
    simp only [Expr.flat, hf, hslice, Option.bind_eq_bind, Option.bind_some, hargs]
    rfl
  | lambda m params body =>
    obtain ⟨-, hbody⟩ := List.forall_mem_cons.1 h
    have hbody := read_all body hbody (by simp at hfuel; omega : sizeOf body ≤ fuel)
    have hparams : r.params.slice a.params = some params := hroot.params
    have hslice : r.body.slice a.bodies = some (body.map (·.mark.number)) := hroot.body
    simp only [Expr.flat, hparams, hslice, Option.bind_eq_bind, Option.bind_some, hbody]
    rfl

theorem read_each (es : List Expr) (h : ∀ n ∈ nodesEach es, a.Holds n) {fuel : Nat}
    (hfuel : sizeOf es ≤ fuel) :
    (es.map (·.mark.number)).mapM (a.expr? fuel) = some es := by
  cases es with
  | nil => rfl
  | cons e es =>
    obtain ⟨he, hes⟩ := List.forall_mem_append.1 h
    have he := e.read_of_holds he (by simp at hfuel; omega : sizeOf e ≤ fuel)
    have hes := read_each es hes (by simp at hfuel; omega : sizeOf es ≤ fuel)
    simp [he, hes]

theorem read_option (e : Option Expr) (h : ∀ n ∈ nodesOption e, a.Holds n) {fuel : Nat}
    (hfuel : sizeOf e ≤ fuel) : (e.map (·.mark.number)).mapM (a.expr? fuel) = some e := by
  cases e with
  | none => rfl
  | some e =>
    have he := e.read_of_holds h (by simp at hfuel; omega : sizeOf e ≤ fuel)
    simp [he]

theorem Stmt.read_of_holds (s : Stmt) (h : ∀ n ∈ s.nodes, a.Holds n) {fuel : Nat}
    (hfuel : sizeOf s ≤ fuel) : a.stmt? fuel s.mark.number = some s := by
  obtain ⟨fuel, rfl⟩ := Nat.exists_eq_add_of_le' (Nat.le_trans s.sizeOf_pos hfuel)
  obtain ⟨r, hroot⟩ := h (.stmt s) s.mem_nodes
  have hentry : a.stmts[s.mark.number]? = some (s.flat r, s.span) := hroot.entry
  rw [Arena.stmt?, hentry]
  cases s with
  | classDecl => rfl
  | expression m e | print m e =>
    obtain ⟨-, he⟩ := List.forall_mem_cons.1 h
    have he := e.read_of_holds he (by simp at hfuel; omega : sizeOf e ≤ fuel)
    simp only [Stmt.flat, he]
    rfl
  | varDecl m _ e | returns m e | breaks m e =>
    obtain ⟨-, he⟩ := List.forall_mem_cons.1 h
    have he := read_option e he (by simp at hfuel; omega : sizeOf e ≤ fuel)
    simp only [Stmt.flat, he]
    rfl
  | block m body =>
    obtain ⟨-, hbody⟩ := List.forall_mem_cons.1 h
    have hbody := read_all body hbody (by simp at hfuel; omega : sizeOf body ≤ fuel)
    have hslice : r.body.slice a.bodies = some (body.map (·.mark.number)) := hroot.body
    simp only [Stmt.flat, hslice, Option.bind_eq_bind, Option.bind_some, hbody]
    rfl
  | ifElse m c t e =>
    obtain ⟨-, h⟩ := List.forall_mem_cons.1 h
    obtain ⟨h, he⟩ := List.forall_mem_append.1 h
    obtain ⟨hc, ht⟩ := List.forall_mem_append.1 h
    have hc := c.read_of_holds hc (by simp at hfuel; omega : sizeOf c ≤ fuel)
    have ht := t.read_of_holds ht (by simp at hfuel; omega : sizeOf t ≤ fuel)
    have he := read_else e he (by simp at hfuel; omega : sizeOf e ≤ fuel)
    simp only [Stmt.flat, hc, ht, he]
    rfl
  | whileDo m c b =>
    obtain ⟨-, h⟩ := List.forall_mem_cons.1 h
    obtain ⟨hc, hb⟩ := List.forall_mem_append.1 h
    have hc := c.read_of_holds hc (by simp at hfuel; omega : sizeOf c ≤ fuel)
    have hb := b.read_of_holds hb (by simp at hfuel; omega : sizeOf b ≤ fuel)
    simp only [Stmt.flat, hc, hb]
    rfl
  | funDecl m _ params body =>
    obtain ⟨-, hbody⟩ := List.forall_mem_cons.1 h
    have hbody := read_all body hbody (by simp at hfuel; omega : sizeOf body ≤ fuel)
    have hparams : r.params.slice a.params = some params := hroot.params
    have hslice : r.body.slice a.bodies = some (body.map (·.mark.number)) := hroot.body
    simp only [Stmt.flat, hparams, hslice, Option.bind_eq_bind, Option.bind_some, hbody]
    rfl

theorem read_else (s : Option Stmt) (h : ∀ n ∈ nodesElse s, a.Holds n) {fuel : Nat}
    (hfuel : sizeOf s ≤ fuel) : (s.map (·.mark.number)).mapM (a.stmt? fuel) = some s := by
  cases s with
  | none => rfl
  | some s =>
    have hs := s.read_of_holds h (by simp at hfuel; omega : sizeOf s ≤ fuel)
    simp [hs]

theorem read_all (ss : List Stmt) (h : ∀ n ∈ nodesAll ss, a.Holds n) {fuel : Nat}
    (hfuel : sizeOf ss ≤ fuel) :
    (ss.map (·.mark.number)).mapM (a.stmt? fuel) = some ss := by
  cases ss with
  | nil => rfl
  | cons s ss =>
    obtain ⟨hs, hss⟩ := List.forall_mem_append.1 h
    have hs := s.read_of_holds hs (by simp at hfuel; omega : sizeOf s ≤ fuel)
    have hss := read_all ss hss (by simp at hfuel; omega : sizeOf ss ≤ fuel)
    simp [hs, hss]

end

/-- A node is read back if the arena holds it and all nodes below it. -/
theorem Arena.reads_of_holds {n : Node} (h : ∀ m ∈ n.nodes, a.Holds m) : a.Reads n := by
  cases n with
  | expr e => exact ⟨sizeOf e, fun _ hfuel => e.read_of_holds h hfuel⟩
  | stmt s => exact ⟨sizeOf s, fun _ hfuel => s.read_of_holds h hfuel⟩

end Reading

end Lox
