import Lox.Proofs.NodeNumbers
import Lox.Proofs.Numbering
import Lox.Token.Lexer

/-!
# The tables of a program are a forest

An entry leads to the entries whose numbers it has, directly or in its segments. The left side of an
assignment keeps its place, but the assignment does not lead to it. So an object whose property is
given has two entries that lead to it, and no statement of the program leads to one of them.

* `follow`: where a path leads that selects one of several branches at each step;
* `LeftSide.entry`, `Program.exprAt?`, `Program.below`: the tables with the left sides in their
  places;
* `Program.Forest`: what it says that the tables are a forest;
* `Node.path_unique`: in trees with different numbers one path leads to each node;
* `parse_leftSides`, `parse_target_entry`: the left sides are the targets that the reader kept;
* `parse_forest`.
-/

namespace Lox

/-! ### Paths -/

section Paths

variable {α β : Type}

/-- Where a path leads. Its first number selects a root, and each further one selects something
directly below what was reached. -/
def follow (below : α → List α) : List α → List Nat → Option α
  | _, [] => none
  | roots, [i] => roots[i]?
  | roots, i :: j :: path => roots[i]?.bind fun a => follow below (below a) (j :: path)

variable {below : α → List α} {roots : List α}

theorem follow_cons (i : Nat) (path : List Nat) : follow below roots (i :: path) =
    roots[i]?.bind fun a => if path = [] then some a else follow below (below a) path := by
  cases path with
  | nil => cases h : roots[i]? <;> simp [follow, h]
  | cons j path => simp [follow]

/-- A path leads to the same places in a copy. -/
theorem follow_map {below' : β → List β} {f : α → β} {S : List α}
    (hbelow : ∀ a ∈ S, below' (f a) = (below a).map f) (hS : ∀ a ∈ S, below a ⊆ S)
    (path : List Nat) (hroots : roots ⊆ S) :
    follow below' (roots.map f) path = (follow below roots path).map f := by
  induction path generalizing roots with
  | nil => rfl
  | cons i path ih =>
    rw [follow_cons, follow_cons, List.getElem?_map]
    cases ha : roots[i]? with
    | none => rfl
    | some a =>
      have haS : a ∈ S := hroots (List.mem_of_getElem? ha)
      by_cases hpath : path = []
      · simp [hpath]
      · simp [hpath, hbelow a haS, ih (hS a haS)]

end Paths

/-! ### Entries and what is below them -/

/-- A number has an entry. -/
def NodeId.In (a : Arena) : NodeId → Prop
  | expr i => i < a.exprs.length
  | stmt i => i < a.stmts.length

/-- The entry of a left side. -/
def LeftSide.entry (l : LeftSide) : FlatExpr :=
  match l.object with
  | none => .var l.name
  | some o => .get o.mark.number l.name

/-- The left sides that the assignments of a program replaced. -/
def Program.leftSides (p : Program) : List LeftSide := p.nodes.filterMap Node.left?

/-- The numbers in an entry. -/
def FlatExpr.ids : FlatExpr → List NodeId
  | literal _ | var _ | lambda _ _ => []
  | group e | unary _ e | assign _ e | get e _ | call e _ => [.expr e]
  | binary l _ r | logical l _ r | set l _ r => [.expr l, .expr r]

/-- The numbers in an entry and in its segments. -/
def FlatExpr.below (a : Arena) (e : FlatExpr) : List NodeId :=
  e.ids ++ match e with
  | call _ args => ((args.slice a.args).getD []).map .expr
  | lambda _ body => ((body.slice a.bodies).getD []).map .stmt
  | _ => []

/-- The numbers in an entry. -/
def FlatStmt.ids : FlatStmt → List NodeId
  | expression e | print e => [.expr e]
  | varDecl _ e | returns e | breaks e => (e.map .expr).toList
  | ifElse c t e => .expr c :: .stmt t :: (e.map .stmt).toList
  | whileDo c b => [.expr c, .stmt b]
  | block _ | funDecl _ _ _ | classDecl _ => []

/-- The numbers in an entry and in its segments. -/
def FlatStmt.below (a : Arena) (s : FlatStmt) : List NodeId :=
  s.ids ++ match s with
  | block body | funDecl _ _ body => ((body.slice a.bodies).getD []).map .stmt
  | _ => []

/-- A segment is part of a table. -/
def Segment.Within {α : Type} (r : Segment) (table : List α) : Prop :=
  r.start + r.length ≤ table.length

/-- All numbers and segments of an entry are in the tables. -/
def FlatExpr.Fits (a : Arena) (e : FlatExpr) : Prop :=
  (∀ q ∈ e.ids, q.In a) ∧ match e with
  | call _ args => args.Within a.args
  | lambda params body => params.Within a.params ∧ body.Within a.bodies
  | _ => True

/-- All numbers and segments of an entry are in the tables. -/
def FlatStmt.Fits (a : Arena) (s : FlatStmt) : Prop :=
  (∀ q ∈ s.ids, q.In a) ∧ match s with
  | block body => body.Within a.bodies
  | funDecl _ params body => params.Within a.params ∧ body.Within a.bodies
  | _ => True

namespace Program

variable (p : Program)

/-- The entry of an expression. The left sides are in the places that are empty in the arena. -/
def exprAt? (i : Nat) : Option FlatExpr :=
  match p.arena.exprs[i]? with
  | some (some (e, _)) => some e
  | some none => (p.leftSides.find? (·.number == i)).map LeftSide.entry
  | none => none

/-- The numbers that an entry leads to. -/
def below : NodeId → List NodeId
  | .expr i => ((p.exprAt? i).map (FlatExpr.below p.arena)).getD []
  | .stmt i => (p.arena.stmts[i]?.map (·.1.below p.arena)).getD []

/-- A path from the statements of a program leads to an entry. -/
def Leads (path : List Nat) (q : NodeId) : Prop :=
  follow p.below (p.statements.map (.stmt ·.mark.number)) path = some q

/-- The tables of a program are a forest, apart from the left sides of assignments, and hold the
trees that were read. -/
structure Forest : Prop where
  /-- The tables have as many entries as its reader made. -/
  counts : p.arena.counts = ⟨p.exprCount, p.stmtCount⟩
  /-- All places have entries, whose numbers and segments are in the tables. -/
  exprs_fit : ∀ i < p.exprCount, ∃ e, p.exprAt? i = some e ∧ e.Fits p.arena
  stmts_fit : ∀ i < p.stmtCount, ∃ s, p.arena.stmts[i]? = some s ∧ s.1.Fits p.arena
  args_fit : ∀ i ∈ p.arena.args, i < p.exprCount
  bodies_fit : ∀ i ∈ p.arena.bodies, i < p.stmtCount
  roots_fit : ∀ s ∈ p.statements, s.mark.number < p.stmtCount
  /-- What is below an entry, at any depth, has smaller numbers of its sort. -/
  descends : ∀ q r path, follow p.below (p.below q) path = some r → r.Precedes q
  /-- No two paths lead to one entry. -/
  path_unique : ∀ path path' q, p.Leads path q → p.Leads path' q → path = path'
  /-- A path leads to every statement, and to the expressions that are no left sides. -/
  stmt_reached : ∀ i < p.stmtCount, ∃ path, p.Leads path (.stmt i)
  unreached : ∀ i < p.exprCount,
    (¬ ∃ path, p.Leads path (.expr i)) ↔ i ∈ p.leftSides.map LeftSide.number
  /-- The left sides are in their own places, one for each assignment, which are the empty places of
  the arena. -/
  left_entry : ∀ l ∈ p.leftSides, p.exprAt? l.number = some l.entry
  left_nodup : (p.leftSides.map LeftSide.number).Nodup
  left_empty : ∀ i, p.arena.exprs[i]? = some none ↔ i ∈ p.leftSides.map LeftSide.number
  /-- The entries and the lists of all nodes are where their numbers and segments say, they lead to
  the nodes that were read there, and whole trees are read back. -/
  holds : ∀ n ∈ p.nodes, p.arena.Holds n
  below_id : ∀ n ∈ p.nodes, p.below n.id = n.children.map Node.id
  reads : ∀ n ∈ p.nodes, p.arena.Reads n
  /-- There are as many entries as nodes in the trees, and one more for each assignment. -/
  expr_count : p.exprCount = p.nodes.countP (·.id.isExpr) + p.leftSides.length
  stmt_count : p.stmtCount = p.nodes.countP (!·.id.isExpr)

end Program

/-! ### Paths in trees -/

namespace Node

variable {roots : List Node} {path path' : List Nat} {n n' : Node}

theorem mem_of_follow (h : follow children roots path = some n) : n ∈ roots.flatMap nodes := by
  induction path generalizing roots with
  | nil => cases h
  | cons i path ih =>
    rw [follow_cons] at h
    obtain ⟨r, hr, h⟩ := Option.bind_eq_some_iff.1 h
    refine List.mem_flatMap.2 ⟨r, List.mem_of_getElem? hr, ?_⟩
    rw [nodes_eq]
    split at h
    · cases h
      exact .head _
    · exact .tail _ (ih h)

theorem exists_follow {roots : List Node} (hn : n ∈ roots.flatMap nodes) :
    ∃ path, follow children roots path = some n := by
  obtain ⟨r, hr, hn⟩ := List.mem_flatMap.1 hn
  obtain ⟨i, hi⟩ := List.mem_iff_getElem?.1 hr
  have hsmaller : (r.children.flatMap nodes).length < (roots.flatMap nodes).length := by
    have hle := (List.sublist_flatten_of_mem (List.mem_map_of_mem (f := nodes) hr)).length_le
    rwa [r.nodes_eq] at hle
  rw [nodes_eq] at hn
  rcases List.mem_cons.1 hn with rfl | hn
  · exact ⟨[i], hi⟩
  · obtain ⟨path, hpath⟩ := exists_follow hn
    have hne : path ≠ [] := by
      rintro rfl
      cases hpath
    exact ⟨i :: path, by simp [follow_cons, hi, hne, hpath]⟩
termination_by (roots.flatMap nodes).length
decreasing_by exact hsmaller

/-- If parts of a list are not alike, two of them that have something in common are one part. -/
theorem part_unique {α β : Type} {f : α → List β} {l : List α} (h : (l.flatMap f).Nodup)
    {i j : Nat} {a a' : α} (ha : l[i]? = some a) (ha' : l[j]? = some a') {b : β}
    (hb : b ∈ f a) (hb' : b ∈ f a') : i = j := by
  have hdisjoint := List.pairwise_iff_getElem.1 (List.nodup_flatMap.1 h).2
  obtain ⟨hi, rfl⟩ := List.getElem?_eq_some_iff.1 ha
  obtain ⟨hj, rfl⟩ := List.getElem?_eq_some_iff.1 ha'
  rcases Nat.lt_trichotomy i j with hlt | rfl | hlt
  · exact absurd hb' (hdisjoint i j hi hj hlt hb)
  · rfl
  · exact absurd hb (hdisjoint j i hj hi hlt hb')

/-- If the nodes of trees have different numbers, only one path leads to each of them. -/
theorem path_unique (h : ((roots.flatMap nodes).map id).Nodup)
    (hn : follow children roots path = some n) (hn' : follow children roots path' = some n')
    (hid : n.id = n'.id) : path = path' := by
  induction path generalizing roots path' with
  | nil => cases hn
  | cons i path ih =>
    cases path' with
    | nil => cases hn'
    | cons j path' =>
      rw [follow_cons] at hn hn'
      obtain ⟨r, hr, hn⟩ := Option.bind_eq_some_iff.1 hn
      obtain ⟨r', hr', hn'⟩ := Option.bind_eq_some_iff.1 hn'
      have hmem {r m : Node} {path : List Nat}
          (h : (if path = [] then some r else follow children r.children path) = some m) :
          m.id ∈ r.nodes.map id := by
        refine List.mem_map_of_mem ?_
        rw [nodes_eq]
        split at h
        · cases h
          exact .head _
        · exact .tail _ (mem_of_follow h)
      rw [List.map_flatMap] at h
      obtain rfl : i = j := part_unique h hr hr' (hmem hn) (hid ▸ hmem hn')
      obtain rfl : r = r' := by simpa [hr] using hr'
      have hnodes := (List.nodup_flatMap.1 h).1 r (List.mem_of_getElem? hr)
      rw [nodes_eq, List.map_cons, List.nodup_cons] at hnodes
      obtain ⟨hroot, hbelow⟩ := hnodes
      congr 1
      by_cases hpath : path = [] <;> by_cases hpath' : path' = []
      · rw [hpath, hpath']
      · simp only [hpath, hpath', if_true, if_false, Option.some.injEq] at hn hn'
        subst hn
        exact absurd (hid ▸ List.mem_map_of_mem (mem_of_follow hn')) hroot
      · simp only [hpath, hpath', if_true, if_false, Option.some.injEq] at hn hn'
        subst hn'
        exact absurd (hid ▸ List.mem_map_of_mem (mem_of_follow hn)) hroot
      · simp only [hpath, hpath', if_false] at hn hn'
        exact ih hbelow hn hn'

end Node

/-! ### Entries -/

namespace Arena

variable {a : Arena}

theorem mem_args_addAll {slots : List Slot} {i : Nat} (h : i ∈ (a.addAll slots).args) :
    i ∈ a.args ∨ ∃ n, .node n ∈ slots ∧ i ∈ n.args := by
  induction slots generalizing a with
  | nil => exact .inl h
  | cons slot slots ih =>
    rcases ih (a := a.add slot) h with h | ⟨n, hn, h⟩
    · cases slot with
      | target => exact .inl h
      | node n =>
        have h : i ∈ a.args ++ n.args := by cases n <;> exact h
        exact (List.mem_append.1 h).imp_right fun h => ⟨n, .head _, h⟩
    · exact .inr ⟨n, .tail _ hn, h⟩

theorem mem_bodies_addAll {slots : List Slot} {i : Nat} (h : i ∈ (a.addAll slots).bodies) :
    i ∈ a.bodies ∨ ∃ n, .node n ∈ slots ∧ i ∈ n.body := by
  induction slots generalizing a with
  | nil => exact .inl h
  | cons slot slots ih =>
    rcases ih (a := a.add slot) h with h | ⟨n, hn, h⟩
    · cases slot with
      | target => exact .inl h
      | node n =>
        have h : i ∈ a.bodies ++ n.body := by cases n <;> exact h
        exact (List.mem_append.1 h).imp_right fun h => ⟨n, .head _, h⟩
    · exact .inr ⟨n, .tail _ hn, h⟩

/-- Every entry that is added belongs to a node with its number. -/
theorem exists_of_entry {c d : Counts} {slots : List Slot} (h : Numbered c slots d)
    (ha : a.counts = c) {i : Nat} {x : FlatExpr × Span}
    (hx : (a.addAll slots).exprs[i]? = some (some x)) :
    a.exprs[i]? = some (some x) ∨ ∃ n, .node n ∈ slots ∧ n.id = .expr i := by
  induction h generalizing a with
  | nil => exact .inl hx
  | target tail ih =>
    rcases ih (a := a.add .target) (by simp [counts, add, ← ha]) hx with h | ⟨n, hn, hid⟩
    · rw [add, List.getElem?_append] at h
      split at h
      · exact .inl h
      · simp [List.getElem?_singleton] at h
    · exact .inr ⟨n, .tail _ hn, hid⟩
  | @expr c d e slots number tail ih =>
    rcases ih (a := a.add (.node (.expr e))) (by simp [counts, add, ← ha]) hx with h | ⟨n, hn, hid⟩
    · simp only [add, List.getElem?_append] at h
      split at h
      · exact .inl h
      · refine .inr ⟨.expr e, .head _, ?_⟩
        simp [List.getElem?_singleton] at h
        simp [Node.id, number, ← ha, counts]
        omega
    · exact .inr ⟨n, .tail _ hn, hid⟩
  | @stmt c d s slots number tail ih =>
    rcases ih (a := a.add (.node (.stmt s))) (by simp [counts, add, ← ha]) hx with h | ⟨n, hn, hid⟩
    · exact .inl h
    · exact .inr ⟨n, .tail _ hn, hid⟩

end Arena

theorem Segment.within_of_slice {α : Type} {r : Segment} {table xs : List α}
    (h : r.slice table = some xs) : r.Within table := by
  rw [slice] at h
  split at h
  · assumption
  · cases h

section Entries

variable {p : Program} {r : Segments}

theorem Program.exprAt?_of_holdsAt {e : Expr} (h : p.arena.HoldsAt r (.expr e)) :
    p.exprAt? e.mark.number = some (e.flat r) := by
  have hentry : p.arena.exprs[e.mark.number]? = some (some (e.flat r, e.span)) := h.entry
  rw [exprAt?, hentry]

/-- The entry of a node leads to the nodes directly below it. -/
theorem Program.below_of_holdsAt {n : Node} (h : p.arena.HoldsAt r n) :
    p.below n.id = n.children.map Node.id := by
  have hargs := h.args
  have hbody := h.body
  cases n with
  | expr e =>
    simp only [Node.id, below, exprAt?_of_holdsAt h, Option.map_some, Option.getD_some]
    cases e <;>
      simp_all [FlatExpr.below, FlatExpr.ids, Expr.flat, Node.children, Node.id, Node.args,
        Node.body]
  | stmt s =>
    have hentry : p.arena.stmts[s.mark.number]? = some (s.flat r, s.span) := h.entry
    simp only [Node.id, below, hentry, Option.map_some, Option.getD_some]
    cases s <;>
      simp_all [FlatStmt.below, FlatStmt.ids, Stmt.flat, Node.children, Node.id, Node.body,
        Option.toList_map]

theorem Expr.flat_fits {e : Expr} (h : p.arena.HoldsAt r (.expr e))
    (hchildren : ∀ m ∈ (Node.expr e).children, m.id.In p.arena) : (e.flat r).Fits p.arena := by
  have hargs := Segment.within_of_slice h.args
  have hparams := Segment.within_of_slice h.params
  have hbody := Segment.within_of_slice h.body
  cases e <;> simp_all [FlatExpr.Fits, FlatExpr.ids, Expr.flat, Node.children, Node.id]

theorem Stmt.flat_fits {s : Stmt} (h : p.arena.HoldsAt r (.stmt s))
    (hchildren : ∀ m ∈ (Node.stmt s).children, m.id.In p.arena) : (s.flat r).Fits p.arena := by
  have hparams := Segment.within_of_slice h.params
  have hbody := Segment.within_of_slice h.body
  cases s <;> simp_all [FlatStmt.Fits, FlatStmt.ids, Stmt.flat, Node.children, Node.id]

end Entries

/-! ### Programs -/

theorem Node.left_children {n : Node} {l : LeftSide} (h : n.left? = some l) :
    l.children ⊆ n.children := by
  cases n with
  | expr e =>
    cases e <;> simp [left?, Expr.left?] at h
    all_goals
      subst h
      simp [LeftSide.children, children]
  | stmt s => cases h

theorem Node.exists_of_mem_args {n : Node} {i : Nat} (h : i ∈ n.args) :
    ∃ m ∈ n.children, m.id = .expr i := by
  unfold args at h
  split at h
  · obtain ⟨e, he, rfl⟩ := List.mem_map.1 h
    exact ⟨.expr e, .tail _ (List.mem_map_of_mem he), rfl⟩
  · cases h

theorem Node.exists_of_mem_body {n : Node} {i : Nat} (h : i ∈ n.body) :
    ∃ m ∈ n.children, m.id = .stmt i := by
  unfold body at h
  split at h
  · obtain ⟨s, hs, rfl⟩ := List.mem_map.1 h
    exact ⟨.stmt s, List.mem_map_of_mem hs, rfl⟩
  · obtain ⟨s, hs, rfl⟩ := List.mem_map.1 h
    exact ⟨.stmt s, List.mem_map_of_mem hs, rfl⟩
  · obtain ⟨s, hs, rfl⟩ := List.mem_map.1 h
    exact ⟨.stmt s, List.mem_map_of_mem hs, rfl⟩
  · cases h

@[simp] theorem LeftSide.ids_entry (l : LeftSide) : l.entry.ids = l.children.map Node.id := by
  unfold entry children
  split <;> simp [*, FlatExpr.ids, Node.id]

@[simp] theorem LeftSide.below_entry (l : LeftSide) (a : Arena) :
    l.entry.below a = l.children.map Node.id := by
  rw [← l.ids_entry]
  unfold entry FlatExpr.below
  split <;> simp

theorem LeftSide.entry_fits {l : LeftSide} {a : Arena} (h : ∀ m ∈ l.children, m.id.In a) :
    l.entry.Fits a := by
  refine ⟨by simpa using h, ?_⟩
  obtain ⟨number, object, name⟩ := l
  cases object <;> trivial

section Forest

variable {p : Program}
  (h : Numbered ⟨0, 0⟩ (slotsAll p.statements) ⟨p.exprCount, p.stmtCount⟩)

include h

theorem Program.grown : Grown ⟨0, 0⟩ [] p.nodes ⟨p.exprCount, p.stmtCount⟩ :=
  grown_all p.statements h

theorem Program.id_in {q : NodeId} :
    q.In p.arena ↔ q ∈ NodeId.between ⟨0, 0⟩ ⟨p.exprCount, p.stmtCount⟩ := by
  have hcounts := (p.arena_holds h).1
  simp only [Arena.counts, Counts.mk.injEq] at hcounts
  cases q <;> simp [NodeId.In, hcounts]

theorem Program.node_in {n : Node} (hn : n ∈ p.nodes) : n.id.In p.arena :=
  (p.id_in h).2 ((p.grown h).mem_between hn)

/-- The places of left sides are empty in the arena. -/
theorem Program.left_empty {i : Nat} :
    p.arena.exprs[i]? = some none ↔ i ∈ p.leftSides.map LeftSide.number := by
  have hnodup := (p.grown h).nodup.2.2
  constructor
  · intro hi
    have hbound : (NodeId.expr i).In p.arena := (List.getElem?_eq_some_iff.1 hi).1
    rcases (p.grown h).exists_of_mem_between ((p.id_in h).1 hbound) with ⟨j, hj, ⟨⟩⟩ | ⟨n, hn, hid⟩
    · exact hj
    · obtain ⟨r, hr⟩ := (p.arena_holds h).2 n hn
      cases n with
      | expr e =>
        cases hid
        have hentry : p.arena.exprs[e.mark.number]? = some (some (e.flat r, e.span)) := hr.entry
        simp [hentry] at hi
      | stmt s => cases hid
  · intro hi
    have hbound : (NodeId.expr i).In p.arena :=
      (p.id_in h).2 ((p.grown h).ids.mem_iff.1 (List.mem_append_left _ (List.mem_map_of_mem hi)))
    have hsome : p.arena.exprs[i]? = some p.arena.exprs[i] := List.getElem?_eq_getElem hbound
    cases hentry : p.arena.exprs[i] with
    | none => rw [hsome, hentry]
    | some x =>
      rw [hentry] at hsome
      rcases Arena.exists_of_entry h (a := .empty) rfl hsome with hx | ⟨n, hn, hid⟩
      · simp [Arena.empty] at hx
      · exact absurd hid (hnodup i hi n (((allMade_all p.statements).mem_iff n).1 hn))

theorem Program.left_entry {l : LeftSide} (hl : l ∈ p.leftSides) :
    p.exprAt? l.number = some l.entry := by
  have hempty := (p.left_empty h).2 (List.mem_map_of_mem hl)
  have hfind : p.leftSides.find? (·.number == l.number) = some l := by
    cases hfind : p.leftSides.find? (·.number == l.number) with
    | none => simpa using List.find?_eq_none.1 hfind l hl
    | some l' =>
      have hnumber : l'.number = l.number := by simpa using List.find?_some hfind
      have hl' := List.mem_of_find?_eq_some hfind
      rw [List.inj_on_of_nodup_map (p.grown h).nodup.1 hl' hl hnumber]
  rw [exprAt?, hempty]
  simp [hfind]

omit h in
theorem Program.left_children_subset {l : LeftSide} (hl : l ∈ p.leftSides) :
    l.children ⊆ p.nodes := by
  obtain ⟨n, hn, hleft⟩ := List.mem_filterMap.1 hl
  exact List.Subset.trans (Node.left_children hleft) (p.children_subset hn)

/-- What is below nodes of a program in its tables are the nodes below them. -/
theorem Program.follow_eq {roots : List Node} (hroots : roots ⊆ p.nodes) (path : List Nat) :
    follow p.below (roots.map Node.id) path = (follow Node.children roots path).map Node.id :=
  follow_map (fun n hn => ((p.arena_holds h).2 n hn).elim fun _ hr => p.below_of_holdsAt hr)
    (fun _ hn => p.children_subset hn) path hroots

theorem Program.leads_iff {path : List Nat} {q : NodeId} : p.Leads path q ↔
    ∃ n, follow Node.children (p.statements.map Node.stmt) path = some n ∧ n.id = q := by
  have hroots : p.statements.map Node.stmt ⊆ p.nodes := fun n hn =>
    p.nodes_eq ▸ List.mem_flatMap.2 ⟨n, hn, n.mem_nodes⟩
  have hfollow := p.follow_eq h hroots path
  rw [List.map_map] at hfollow
  rw [Leads, show (fun s : Stmt => NodeId.stmt s.mark.number) = Node.id ∘ Node.stmt from rfl,
    hfollow, Option.map_eq_some_iff]

theorem Program.exists_leads {n : Node} (hn : n ∈ p.nodes) : ∃ path, p.Leads path n.id := by
  rw [p.nodes_eq] at hn
  obtain ⟨path, hpath⟩ := Node.exists_follow hn
  exact ⟨path, (p.leads_iff h).2 ⟨n, hpath, rfl⟩⟩

/-- What is below an entry belongs to a node below it. -/
theorem Program.descends {q r : NodeId} {path : List Nat}
    (hr : follow p.below (p.below q) path = some r) : r.Precedes q := by
  have hbelow {ms : List Node} (hms : ms ⊆ p.nodes) (hq : p.below q = ms.map Node.id) :
      ∃ m ∈ ms.flatMap Node.nodes, m.id = r := by
    rw [hq, p.follow_eq h hms] at hr
    obtain ⟨m, hm, hid⟩ := Option.map_eq_some_iff.1 hr
    exact ⟨m, Node.mem_of_follow hm, hid⟩
  by_cases hin : q.In p.arena
  · rcases (p.grown h).exists_of_mem_between ((p.id_in h).1 hin) with ⟨i, hi, rfl⟩ | ⟨n, hn, rfl⟩
    · obtain ⟨l, hl, rfl⟩ := List.mem_map.1 hi
      obtain ⟨m, hm, rfl⟩ := hbelow (p.left_children_subset hl) (by simp [below, p.left_entry h hl])
      obtain ⟨n, hn, hleft⟩ := List.mem_filterMap.1 hl
      exact ((p.grown h).ordered n hn).left l hleft m hm
    · obtain ⟨_, hholds⟩ := (p.arena_holds h).2 n hn
      obtain ⟨m, hm, rfl⟩ := hbelow (p.children_subset hn) (p.below_of_holdsAt hholds)
      exact ((p.grown h).ordered n hn).below m hm
  · have hempty : p.below q = [] := by
      cases q with
      | expr i => simp [below, exprAt?, List.getElem?_eq_none (Nat.not_lt.1 hin)]
      | stmt i => simp [below, List.getElem?_eq_none (Nat.not_lt.1 hin)]
    rw [hempty] at hr
    cases path <;> simp [follow_cons, follow] at hr

theorem Program.path_unique {path path' : List Nat} {q : NodeId} (hpath : p.Leads path q)
    (hpath' : p.Leads path' q) : path = path' := by
  obtain ⟨n, hn, rfl⟩ := (p.leads_iff h).1 hpath
  obtain ⟨n', hn', hid⟩ := (p.leads_iff h).1 hpath'
  have hnodup := (p.grown h).nodup.2.1
  rw [p.nodes_eq] at hnodup
  exact Node.path_unique hnodup hn hn' hid.symm

theorem Program.unreached {i : Nat} (hi : i < p.exprCount) :
    (¬ ∃ path, p.Leads path (.expr i)) ↔ i ∈ p.leftSides.map LeftSide.number := by
  constructor
  · intro hpath
    rcases (p.grown h).exists_of_mem_between (q := .expr i) (by simp [hi]) with
      ⟨j, hj, ⟨⟩⟩ | ⟨n, hn, hid⟩
    · exact hj
    · exact absurd (hid ▸ p.exists_leads h hn) hpath
  · rintro hleft ⟨path, hpath⟩
    obtain ⟨n, hn, hid⟩ := (p.leads_iff h).1 hpath
    have hmem : n ∈ p.nodes := p.nodes_eq ▸ Node.mem_of_follow hn
    exact (p.grown h).nodup.2.2 i hleft n hmem hid

theorem Program.expr_count :
    p.exprCount = p.nodes.countP (·.id.isExpr) + p.leftSides.length := by
  have hcount := (p.grown h).ids.countP_eq NodeId.isExpr
  simp [NodeId.between, leftNumbers, List.countP_map, Function.comp_def] at hcount
  rw [leftSides]
  omega

theorem Program.stmt_count : p.stmtCount = p.nodes.countP (!·.id.isExpr) := by
  have hcount := (p.grown h).ids.countP_eq (!·.isExpr)
  simp [NodeId.between, List.countP_map, Function.comp_def] at hcount
  exact hcount.symm

theorem Program.exprs_fit {i : Nat} (hi : i < p.exprCount) :
    ∃ e, p.exprAt? i = some e ∧ e.Fits p.arena := by
  rcases (p.grown h).exists_of_mem_between (q := .expr i) (by simp [hi]) with
    ⟨j, hj, ⟨⟩⟩ | ⟨n, hn, hid⟩
  · obtain ⟨l, hl, rfl⟩ := List.mem_map.1 hj
    exact ⟨l.entry, p.left_entry h hl,
      LeftSide.entry_fits fun m hm => p.node_in h (p.left_children_subset hl hm)⟩
  · obtain ⟨r, hr⟩ := (p.arena_holds h).2 n hn
    cases n with
    | expr e =>
      cases hid
      exact ⟨e.flat r, p.exprAt?_of_holdsAt hr,
        Expr.flat_fits hr fun m hm => p.node_in h (p.children_subset hn hm)⟩
    | stmt s => cases hid

theorem Program.stmts_fit {i : Nat} (hi : i < p.stmtCount) :
    ∃ s, p.arena.stmts[i]? = some s ∧ s.1.Fits p.arena := by
  rcases (p.grown h).exists_of_mem_between (q := .stmt i) (by simp [hi]) with
    ⟨j, -, ⟨⟩⟩ | ⟨n, hn, hid⟩
  obtain ⟨r, hr⟩ := (p.arena_holds h).2 n hn
  cases n with
  | expr e => cases hid
  | stmt s =>
    cases hid
    exact ⟨_, hr.entry, Stmt.flat_fits hr fun m hm => p.node_in h (p.children_subset hn hm)⟩

theorem Program.forest : p.Forest where
  counts := (p.arena_holds h).1
  exprs_fit _ hi := p.exprs_fit h hi
  stmts_fit _ hi := p.stmts_fit h hi
  args_fit i hi := by
    rcases Arena.mem_args_addAll hi with hi | ⟨n, hn, hi⟩
    · cases hi
    · obtain ⟨m, hm, hid⟩ := n.exists_of_mem_args hi
      have hn := ((allMade_all p.statements).mem_iff n).1 hn
      have hbetween := (p.grown h).mem_between (p.children_subset hn hm)
      simpa [hid] using hbetween
  bodies_fit i hi := by
    rcases Arena.mem_bodies_addAll hi with hi | ⟨n, hn, hi⟩
    · cases hi
    · obtain ⟨m, hm, hid⟩ := n.exists_of_mem_body hi
      have hn := ((allMade_all p.statements).mem_iff n).1 hn
      have hbetween := (p.grown h).mem_between (p.children_subset hn hm)
      simpa [hid] using hbetween
  roots_fit s hs := by
    have hmem : .stmt s ∈ p.nodes :=
      p.nodes_eq ▸ List.mem_flatMap.2 ⟨_, List.mem_map_of_mem hs, s.mem_nodes⟩
    have hbetween := (p.grown h).mem_between hmem
    simpa [Node.id] using hbetween
  descends _ _ _ := p.descends h
  path_unique _ _ _ := p.path_unique h
  stmt_reached i hi := by
    rcases (p.grown h).exists_of_mem_between (q := .stmt i) (by simp [hi]) with
      ⟨j, -, ⟨⟩⟩ | ⟨n, hn, hid⟩
    exact hid ▸ p.exists_leads h hn
  unreached _ := p.unreached h
  left_entry _ := p.left_entry h
  left_nodup := (p.grown h).nodup.1
  left_empty _ := p.left_empty h
  holds := (p.arena_holds h).2
  below_id n hn := ((p.arena_holds h).2 n hn).elim fun _ hr => p.below_of_holdsAt hr
  reads n hn := Arena.reads_of_holds fun m hm =>
    (p.arena_holds h).2 m (whole_nodesAll p.statements n hn hm)
  expr_count := p.expr_count h
  stmt_count := p.stmt_count h

end Forest

section Targets

variable {names : NameTable} {tokens : List Token} {program : Program}
  (h : (parse names tokens).1 = .ok program)

include h

/-- The targets that the reader kept are the left sides of the assignments. -/
theorem parse_leftSides :
    (program.targets.map Expr.asLeft?).Perm (program.leftSides.map some) := by
  have hleft : (slotsAll program.statements).filterMap Slot.left? =
      ((slotsAll program.statements).filterMap Slot.node?).filterMap Node.left? := by
    rw [List.filterMap_filterMap]
    rfl
  rw [parse_targets h, hleft]
  exact ((allMade_all program.statements).filterMap Node.left?).map some

/-- At the number of a target, the tables have its entry. -/
theorem parse_target_entry {e : Expr} (he : e ∈ program.targets) (r : Segments) :
    program.exprAt? e.mark.number = some (e.flat r) := by
  obtain ⟨l, hl, hel⟩ := List.mem_map.1
    ((parse_leftSides h).mem_iff.1 (List.mem_map_of_mem (f := Expr.asLeft?) he))
  have hentry := program.left_entry (parse_numbered h) hl
  cases e with
  | var | get =>
    cases hel
    exact hentry
  | _ => cases hel

end Targets

/-- **The tables of a program are a forest.** Whenever a token list is read as a program, all
numbers and segments in its tables lead to entries, and below an entry they are smaller. One path
leads to every statement, and one to every expression that is not the left side of an assignment,
and to those none leads. Every list is read back where it was put. So there are as many entries as
nodes, and one more for each assignment. -/
theorem parse_forest {names : NameTable} {tokens : List Token} {program : Program}
    (h : (parse names tokens).1 = .ok program) : program.Forest :=
  Program.forest (parse_numbered h)

/-- The left sides of both assignments are in the tables, and no path leads to them. -/
def linkedSource : String := "(a = f(1, b)).x = fun (p, q) \x7b if (p) return q; \x7d;"

theorem parse_forest_linkedSource : ∃ tokens program, lex linkedSource = .ok tokens ∧
    (parse .fresh tokens).1 = .ok program ∧ program.leftSides.length = 2 ∧ program.Forest := by
  have hread : ((lex linkedSource).toOption.bind fun tokens =>
      (parse .fresh tokens).1.toOption.map (·.leftSides.length)) = some 2 := by
    decide +kernel
  cases htokens : lex linkedSource with
  | error e => simp [htokens, Except.toOption] at hread
  | ok tokens =>
    cases hprogram : (parse .fresh tokens).1 with
    | error e => simp [htokens, hprogram, Except.toOption] at hread
    | ok program =>
      have hlength : program.leftSides.length = 2 := by
        simpa [htokens, hprogram, Except.toOption] using hread
      exact ⟨tokens, program, rfl, hprogram, hlength, parse_forest hprogram⟩

end Lox
