import Lox.Proofs.ErrorLocation
import Lox.Proofs.Invariant

/-!
# Nothing escapes from well-scoped programs

Whether every `break` is in a loop and every `return` in a function can be seen in the source. If it
is so in all sources of a session, none of them fails for want of it, whatever functions they pass
around, call and keep for later sources.

* `Program.wellScoped`, `Function.WellScoped`: every `break` is in a loop and every `return` in a
  function;
* `scoping`: code of well-scoped functions makes such functions, and has no other faults;
* `escapes_static`.
-/

namespace Lox

/-- The body of the function that is made at a node. -/
def Node.body? : Node → Option (List Stmt)
  | expr (.lambda _ _ body) => some body
  | stmt (.funDecl _ _ _ body) => some body
  | _ => none

/-- In the functions that are made at certain nodes, every `break` is in a loop of the function. -/
def breaksLoops (nodes : List Node) : Bool :=
  nodes.all fun n => n.body?.all fun body => !mayBreakAll body

/-- Every `return` of a program is in a function, and every `break` is in a loop of the same
function, or of the statements at the top. -/
def Program.wellScoped (p : Program) : Bool :=
  !mayReturnAll p.statements && !mayBreakAll p.statements && breaksLoops p.nodes

/-- A function in which, as in the functions that it makes, every `break` is in a loop. -/
structure Function.WellScoped (f : Function) : Prop where
  body : mayBreakAll f.body = false
  inner : breaksLoops (nodesAll f.body) = true

/-- Well-scoped code makes well-scoped functions. -/
theorem Function.WellScoped.makes {ns : List Node} (hwhole : Whole ns)
    (hns : breaksLoops ns = true) : ∀ n ∈ ns, ∀ p, n.Makes Function.WellScoped p := by
  intro n hn p
  have hinner (body : List Stmt) (hsub : nodesAll body ⊆ n.nodes) :
      breaksLoops (nodesAll body) = true :=
    List.all_eq_true.2 fun m hm => List.all_eq_true.1 hns m (hwhole n hn (hsub hm))
  have hbody : (n.body?.all fun body => !mayBreakAll body) = true := List.all_eq_true.1 hns n hn
  unfold Node.Makes
  split
  · next m params body =>
    exact fun _ => ⟨by simpa [Node.body?] using hbody, hinner body fun _ hx => .tail _ hx⟩
  · next m x params body =>
    exact fun _ => ⟨by simpa [Node.body?] using hbody, hinner body fun _ hx => .tail _ hx⟩
  · trivial

/-- The functions of a state are well-scoped, and so are those that code makes. Code fails otherwise
than for a `break` or a `return`. -/
def scoping : Invariant where
  World := Unit
  Grows _ _ := True
  Ok _ := Function.WellScoped
  Fits _ _ _ := True
  Made := Function.WellScoped
  Says _ := True
  Fails fault := ¬ fault.OfFlow
  grows_refl _ := trivial
  grows_trans _ _ := trivial
  ok_mono _ hf := hf
  ok_made _ _ hf := hf
  made_body hf n hn := ⟨Function.WellScoped.makes (whole_nodesAll _) hf.inner n hn _,
    n.spells_of_forall fun _ => trivial⟩
  says_short _ := trivial
  fits_write _ _ _ := trivial
  exists_push _ := ⟨(), trivial, trivial⟩
  exists_pushOn _ _ := ⟨(), trivial, trivial⟩
  fits_back _ _ _ := trivial
  fails h := h
  fails_break hf h := absurd h (by simp [hf.body])

namespace Session

variable {s : Session} {source : String} {o : Outcome}

/-- A well-scoped source leaves well-scoped functions behind, and does not fail for a `break` or a
`return`. -/
theorem Ends.wellScoped (hs : s.state.Each Function.WellScoped)
    (hsource : ∀ program, IsProgram source program → program.wellScoped = true)
    (h : s.Ends source o) : o.session.state.Each Function.WellScoped ∧
      ∀ e, o.problem = some (.running e) → ¬ e.fault.OfFlow := by
  obtain ⟨fuel, hrun⟩ := h
  cases hread : (s.read source).1 with
  | error p =>
    obtain rfl := (ends_iff_of_read_eq_error hread).1 ⟨fuel, hrun⟩
    refine ⟨by rwa [reject, state_read], ?_⟩
    rintro e ⟨⟩
    exact absurd hread read_ne_running
  | ok program =>
    have hscoped := hsource program (.of_read hread)
    simp only [Program.wellScoped, Bool.and_eq_true, Bool.not_eq_true'] at hscoped
    obtain ⟨⟨hreturn, hbreak⟩, hinner⟩ := hscoped
    rw [run_of_read_eq_ok hread] at hrun
    have hat : scoping.At () { (s.read source).2.state with output := "", program } := by
      rw [state_read]
      exact .of_each ⟨hs.frames, hs.objects⟩ (fun _ => trivial) trivial
    obtain ⟨_, -, ho, hfails⟩ := Invariant.runProgram hat
      (fun n hn => Invariant.allows_of_makes
        (Function.WellScoped.makes (whole_nodesAll _) hinner n hn program) fun _ => trivial)
      (fun h => absurd h (by simp [hbreak])) (fun h => absurd h (by simp [hreturn])) hrun
    exact ⟨ho.each, hfails⟩

theorem Plays.wellScoped {s t : Session} {inputs : List Input} {os : List Outcome}
    (h : s.Plays inputs os t) (hs : s.state.Each Function.WellScoped)
    (hsources : ∀ i ∈ inputs, ∀ program, IsProgram i.source program → program.wellScoped = true) :
    ∀ o ∈ os, ∀ e, o.problem = some (.running e) → ¬ e.fault.OfFlow := by
  induction h with
  | nil => simp
  | @cons s t clock source o inputs os ends tail ih =>
    obtain ⟨hsource, hrest⟩ := List.forall_mem_cons.1 hsources
    have hs : (s.setClock clock).state.Each Function.WellScoped := ⟨hs.frames, hs.objects⟩
    obtain ⟨ho, hfails⟩ := ends.wellScoped hs hsource
    exact List.forall_mem_cons.2 ⟨hfails, ih ho hrest⟩

end Session

/-- **What escapes is seen in the source.** In a session whose sources are all well-scoped, no
source fails for a `break` outside of a loop or a `return` outside of a function. In every state, a
statement ends by leaving a loop only if it has a `break` that is not in a loop within it, and by
leaving a function only if it has a `return`, those of the functions that it makes apart. -/
theorem escapes_static :
    (∀ (start : Float) (inputs : List Input) (os : List Outcome) (s : Session),
      (Session.start start).Plays inputs os s →
      (∀ i ∈ inputs, ∀ program, IsProgram i.source program → program.wellScoped = true) →
      ∀ o ∈ os, ∀ e, o.problem = some (.running e) →
        e.fault ≠ .returnOutsideFunction ∧ e.fault ≠ .breakOutsideLoop) ∧
    (∀ (stmt : Stmt) (s t : State) (flow : Flow), stmt.Ends s (.ok flow) t →
      (flow = .leave → stmt.mayBreak = true) ∧
      ∀ v, flow = .result v → stmt.mayReturn = true) := by
  refine ⟨fun start inputs os s h hsources o ho e he => ?_, fun stmt s t flow h => ?_⟩
  · have hflow := h.wellScoped (State.each_start start) hsources o ho e he
    exact ⟨fun h => hflow (h ▸ trivial), fun h => hflow (h ▸ trivial)⟩
  · have hwithin := h.within
    exact ⟨fun h => by simpa [h, Flow.Within] using hwithin,
      fun v h => by simpa [h, Flow.Within] using hwithin⟩

/-- A loop that is left in three ways: when its condition fails, by a `break` and by a `return`. -/
def searchSource : String :=
  "fun search(p) \x7b var i = 0; while (i < 9) \x7b if (p(i)) \x7b if (i < 3) break; " ++
    "return i; \x7d i = i + 1; \x7d return nil; \x7d"

/-- The loop is run with functions made later, of which the last one fails. -/
def searchingSource : String :=
  "print search(fun (n) \x7b return n == 5; \x7d); print search(fun (n) \x7b while (true) break; " ++
    "return n == 2; \x7d); search(fun (n) \x7b return n.p; \x7d);"

/-- A source is well-scoped if its program is in one session. -/
theorem IsProgram.wellScoped_of_read {source : String} {program : Program}
    (h : IsProgram source program) {s : Session}
    (hs : (s.read source).1.toOption.all Program.wellScoped = true) :
    program.wellScoped = true := by
  rw [h s] at hs
  exact hs

/-- The last function fails, and that is no escape. -/
theorem escapes_static_searching : ∃ (os : List Outcome) (s : Session),
    (Session.start 0).Plays [⟨0, searchSource⟩, ⟨1, searchingSource⟩] os s ∧
    os.map Outcome.printed = ["", "5\nnil\n"] ∧
    os.map Outcome.problem = [none, some (.running ⟨.notAnInstance .int, some ⟨128, 131⟩⟩)] ∧
    ∀ o ∈ os, ∀ e, o.problem = some (.running e) →
      e.fault ≠ .returnOutsideFunction ∧ e.fault ≠ .breakOutsideLoop := by
  have hruns : ((((Session.start 0).setClock 0).run 9 searchSource).bind fun first =>
      ((first.session.setClock 1).run 21 searchingSource).map fun second =>
        ([first.printed, second.printed], [first.problem, second.problem])) =
      some (["", "5\nnil\n"], [none, some (.running ⟨.notAnInstance .int, some ⟨128, 131⟩⟩)]) := by
    decide +kernel
  obtain ⟨first, hfirst, hruns⟩ := Option.bind_eq_some_iff.1 hruns
  obtain ⟨second, hsecond, hshown⟩ := Option.map_eq_some_iff.1 hruns
  obtain ⟨hprinted, hproblem⟩ := Prod.mk.inj hshown
  have hplays : (Session.start 0).Plays [⟨0, searchSource⟩, ⟨1, searchingSource⟩] [first, second]
      second.session := .cons ⟨9, hfirst⟩ (.cons ⟨21, hsecond⟩ .nil)
  have hscoped : ∀ i ∈ [Input.mk 0 searchSource, ⟨1, searchingSource⟩], ∀ program,
      IsProgram i.source program → program.wellScoped = true := by
    simp only [List.forall_mem_cons, List.not_mem_nil, false_imp_iff, implies_true, and_true]
    exact ⟨fun _ hp => hp.wellScoped_of_read (s := .start 0) (by decide +kernel),
      fun _ hp => hp.wellScoped_of_read (s := .start 0) (by decide +kernel)⟩
  exact ⟨_, _, hplays, hprinted, hproblem, escapes_static.1 0 _ _ _ hplays hscoped⟩

end Lox
