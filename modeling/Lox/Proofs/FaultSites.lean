import Lox.Proofs.ErrorLocation

/-!
# Which node a fault is blamed on

In a session without a past, all code that runs is that of the one source. So a fault is blamed on a
node of its program, and the fault tells of which sort this node is, with which operator or name.

* `Fault.ArisesAt`: the table of faults and nodes;
* `Node.Raises.arisesAt`: it has what an expression or a statement at the top may raise;
* `error_blamed_on_node`.
-/

namespace Lox

/-- The nodes of a program on which a fault may be blamed. -/
inductive Fault.ArisesAt (p : Program) : Fault → Node → Prop
  | operandMismatch {m : Mark} {l r : Expr} {op : BinaryOp} {t u : ValueType} :
      ArisesAt p (.operandMismatch op t u) (.expr (.binary m l op r))
  | divisionByZero {m : Mark} {l r : Expr} :
      ArisesAt p .divisionByZero (.expr (.binary m l .div r))
  | shiftOutOfRange {m : Mark} {l r : Expr} {op : BinaryOp} {amount : Int64}
      (h : op = .shiftLeft ∨ op = .shiftRight) :
      ArisesAt p (.shiftOutOfRange amount) (.expr (.binary m l op r))
  | stringTooLong {m : Mark} {l r : Expr} {op : BinaryOp} (h : op = .add ∨ op = .mul) :
      ArisesAt p .stringTooLong (.expr (.binary m l op r))
  | addition {m : Mark} {l r : Expr} :
      ArisesAt p (.integerOverflow .addition) (.expr (.binary m l .add r))
  | subtraction {m : Mark} {l r : Expr} :
      ArisesAt p (.integerOverflow .subtraction) (.expr (.binary m l .sub r))
  | multiplication {m : Mark} {l r : Expr} :
      ArisesAt p (.integerOverflow .multiplication) (.expr (.binary m l .mul r))
  | negation {m : Mark} {e : Expr} :
      ArisesAt p (.integerOverflow .negation) (.expr (.unary m .negate e))
  | operandUnfit {m : Mark} {e : Expr} {op : UnaryOp} {t : ValueType} :
      ArisesAt p (.operandUnfit op t) (.expr (.unary m op e))
  | readUndefined {m : Mark} {name : String} :
      ArisesAt p (.undefinedVariable name) (.expr (.var m name))
  | assignedUndefined {m : Mark} {e : Expr} {name : String} :
      ArisesAt p (.undefinedVariable name) (.expr (.assign m name e))
  | readOfNoInstance {m : Mark} {e : Expr} {name : String} {t : ValueType} :
      ArisesAt p (.notAnInstance t) (.expr (.get m e name))
  | writtenToNoInstance {m : Mark} {e v : Expr} {name : String} {t : ValueType} :
      ArisesAt p (.notAnInstance t) (.expr (.set m e name v))
  | undefinedProperty {m : Mark} {e : Expr} {name : String} :
      ArisesAt p (.undefinedProperty name) (.expr (.get m e name))
  | call {fault : Fault} {m : Mark} {e : Expr} {args : List Expr} (h : fault.OfCall) :
      ArisesAt p fault (.expr (.call m e args))
  | returnAtTop {s : Stmt} (h : s ∈ p.statements) : ArisesAt p .returnOutsideFunction (.stmt s)
  | breakAtTop {s : Stmt} (h : s ∈ p.statements) : ArisesAt p .breakOutsideLoop (.stmt s)

variable {p : Program} {fault : Fault}

theorem UnaryOp.Raises.arisesAt {op : UnaryOp} (h : op.Raises fault) (m : Mark) (e : Expr) :
    fault.ArisesAt p (.expr (.unary m op e)) := by
  cases fault with
  | operandUnfit =>
    cases h
    exact .operandUnfit
  | integerOverflow operation =>
    cases operation with
    | negation =>
      cases h
      exact .negation
    | _ => cases h
  | _ => cases h

theorem BinaryOp.Raises.arisesAt {op : BinaryOp} (h : op.Raises fault) (m : Mark) (l r : Expr) :
    fault.ArisesAt p (.expr (.binary m l op r)) := by
  cases fault with
  | operandMismatch =>
    cases h
    exact .operandMismatch
  | divisionByZero =>
    cases h
    exact .divisionByZero
  | shiftOutOfRange => exact .shiftOutOfRange h
  | stringTooLong => exact .stringTooLong h
  | integerOverflow operation =>
    cases operation with
    | addition =>
      cases h
      exact .addition
    | subtraction =>
      cases h
      exact .subtraction
    | multiplication =>
      cases h
      exact .multiplication
    | negation => cases h
  | _ => cases h

/-- What an expression, or a statement at the top, may raise is in the table. -/
theorem Node.Raises.arisesAt {n : Node} (h : n.Raises fault)
    (htop : ∀ s, n = .stmt s → s ∈ p.statements) : fault.ArisesAt p n := by
  cases n with
  | stmt s =>
    obtain rfl | rfl := h
    · exact .returnAtTop (htop s rfl)
    · exact .breakAtTop (htop s rfl)
  | expr e =>
    cases e with
    | unary m op e => exact UnaryOp.Raises.arisesAt h m e
    | binary m l op r => exact BinaryOp.Raises.arisesAt h m l r
    | var m x =>
      cases h
      exact .readUndefined
    | assign m x e =>
      cases h
      exact .assignedUndefined
    | call m f args => exact .call h
    | get m e x =>
      obtain rfl | ⟨t, rfl⟩ := h
      · exact .undefinedProperty
      · exact .readOfNoInstance
    | set m e x v =>
      obtain ⟨t, rfl⟩ := h
      exact .writtenToNoInstance
    | literal | group | logical | lambda => cases h

namespace Session

/-- A program that is run does not fail for another reason than an error of the run. -/
theorem running_of_problem {s : Session} {source : String} {program : Program}
    (hread : (s.read source).1 = .ok program) {o : Outcome} (ho : s.Ends source o)
    {problem : Problem} (hproblem : o.problem = some problem) : ∃ e, problem = .running e := by
  obtain ⟨fuel, hrun⟩ := ho
  rw [run_of_read_eq_ok hread] at hrun
  obtain ⟨r, t, -, -, rfl⟩ := runProgram_eq_some_iff.1 hrun
  match r, hproblem with
  | .error (.error e), hproblem => exact ⟨e, (Option.some.inj hproblem).symm⟩

end Session

/-- **A runtime error is blamed on the node that failed.** When the program of a source fails in a
new session, this is an error with a span. The span is that of a node of the program, of the sort
where the fault arises, and with the operator or the name that the fault tells of. -/
theorem error_blamed_on_node {clock : Clock} {source : String} {program : Program} {o : Outcome}
    {problem : Problem} (hread : ((Session.start clock).read source).1 = .ok program)
    (ho : (Session.start clock).Ends source o) (hproblem : o.problem = some problem) :
    ∃ e, problem = .running e ∧
      ∃ n ∈ program.nodes, e.span = some n.span ∧ e.fault.ArisesAt program n := by
  obtain ⟨e, rfl⟩ := Session.running_of_problem hread ho hproblem
  obtain ⟨fuel, hrun⟩ := ho
  -- errors are blamed on expressions anywhere, and on statements only at the top
  let H (n : Node) : Prop := n ∈ program.nodes ∧ ∀ s, n = .stmt s → s ∈ program.statements
  have heach : (Session.start clock).state.Each (Function.From (· = program)) :=
    State.each_start clock
  have hended := Session.run_ended_at (H := H) heach rfl hread hrun (fun _ he => ⟨he, nofun⟩)
    (fun s hs => ⟨program.stmt_mem_nodes hs, ?_⟩)
    fun f _ hf _ he => ⟨hf.program ▸ hf.body he, nofun⟩
  · obtain ⟨n, ⟨hn, htop⟩, hraises, hspan⟩ := hended.2 e hproblem
    exact ⟨e, rfl, n, hn, hspan, hraises.arisesAt htop⟩
  · rintro _ ⟨⟩
    exact hs

/-- A shift that fails in the third turn of a loop, within a call. -/
def shiftingSource : String :=
  "fun f(n) \x7b while (n < 9) \x7b n = n + 1; print (1 << (n * 30)); \x7d \x7d print f(0);"

/-- The error is blamed on the shift, and not on the parentheses or the call around it. -/
theorem error_blamed_on_node_shift : ∃ (program : Program) (o : Outcome) (n : Node),
    ((Session.start 0).read shiftingSource).1 = .ok program ∧
    (Session.start 0).Ends shiftingSource o ∧
    o.problem = some (.running ⟨.shiftOutOfRange 90, some ⟨45, 58⟩⟩) ∧
    n ∈ program.nodes ∧ n.span = ⟨45, 58⟩ ∧ Fault.ArisesAt program (.shiftOutOfRange 90) n := by
  have hruns : ((Session.start 0).run 9 shiftingSource).bind (·.problem) =
      some (.running ⟨.shiftOutOfRange 90, some ⟨45, 58⟩⟩) := by
    decide +kernel
  obtain ⟨o, hrun, hproblem⟩ := Option.bind_eq_some_iff.1 hruns
  obtain ⟨program, hread⟩ : ∃ p, ((Session.start 0).read shiftingSource).1 = .ok p := by
    rcases Session.run_eq_some_iff.1 hrun with ⟨p, hread, rfl⟩ | ⟨program, hread, -⟩
    · cases hproblem
      exact absurd hread Session.read_ne_running
    · exact ⟨program, hread⟩
  obtain ⟨e, he, n, hn, hspan, harises⟩ := error_blamed_on_node hread ⟨9, hrun⟩ hproblem
  cases he
  exact ⟨program, o, n, hread, ⟨9, hrun⟩, hproblem, hn, (Option.some.inj hspan).symm, harises⟩

end Lox
