import Lox.Proofs.Invariant

/-!
# The points of an execution

Between its start and its end, a run passes the nodes of its code, each in some state. Which node
comes next is said by the ends of the nodes before it, so that also runs that never end have points.

* `Task`: what is to be done at a point;
* `Task.Leads`: from a point to one within it or, in a row of statements or arguments, after it;
* `Task.Visits`, `Session.Visits`: the points of the run of a source;
* `State.Reached`: the states of sessions and of their runs;
* `Invariant.visits`: what holds at every point.
-/

namespace Lox

/-- What is to be done at a point: a node, the rest of the arguments of a call, the rest of the
statements of a body or at the top, or a call of a function. -/
inductive Task
  | node (n : Node)
  | arguments (es : List Expr)
  | body (ss : List Stmt)
  | top (ss : List Stmt)
  | call (f : Function) (args : List Value)

/-- With enough fuel, expressions end with the result `r` in the state `t`. -/
def EndEach (es : List Expr) (s : State) (r : Except Stop (List Value)) (t : State) : Prop :=
  r ≠ .error .outOfFuel ∧ ∃ fuel, (evalAll es).run fuel s = (r, t)

/-- The expression that a node starts with. -/
def Node.first? : Node → Option Expr
  | expr (.group _ e) | expr (.unary _ _ e) | expr (.binary _ e _ _) | expr (.logical _ e _ _)
  | expr (.assign _ _ e) | expr (.call _ e _) | expr (.get _ e _) | expr (.set _ e _ _) => some e
  | stmt (.expression _ e) | stmt (.print _ e) | stmt (.ifElse _ e _ _)
  | stmt (.whileDo _ e _) => some e
  | stmt (.varDecl _ _ e) | stmt (.returns _ e) | stmt (.breaks _ e) => e
  | _ => none

theorem Node.nodes_first? {n : Node} {e : Expr} (h : n.first? = some e) : e.nodes ⊆ n.nodes := by
  unfold first? at h
  split at h
  all_goals cases h
  all_goals simp [nodes, Expr.nodes, Stmt.nodes, nodesOption]

/-- From one point of a run to another, each given by a task and a state. -/
inductive Task.Leads : Task → State → Task → State → Prop
  | first {n : Node} {e : Expr} {s : State} (h : n.first? = some e) :
    Leads (.node n) s (.node (.expr e)) s
  | right {m : Mark} {l r : Expr} {op : BinaryOp} {v : Value} {s t : State}
    (hl : l.Ends s (.ok v) t) : Leads (.node (.expr (.binary m l op r))) s (.node (.expr r)) t
  | undecided {m : Mark} {l r : Expr} {op : LogicalOp} {v : Value} {s t : State}
    (hl : l.Ends s (.ok v) t) (hv : op.decides v = false) :
    Leads (.node (.expr (.logical m l op r))) s (.node (.expr r)) t
  | arguments {m : Mark} {f : Expr} {es : List Expr} {v : Value} {s t : State}
    (hf : f.Ends s (.ok v) t) : Leads (.node (.expr (.call m f es))) s (.arguments es) t
  | call {m : Mark} {e : Expr} {es : List Expr} {id : Nat} {f : Function} {args : List Value}
    {s t u : State} (hf : e.Ends s (.ok (.function id f)) t) (hes : EndEach es t (.ok args) u)
    (harity : f.params.length = args.length) (hdepth : u.depth < maxDepth) :
    Leads (.node (.expr (.call m e es))) s (.call f args) u
  | value {m : Mark} {e e' : Expr} {x className : String} {id : Nat} {s t : State}
    (he : e.Ends s (.ok (.object id className)) t) :
    Leads (.node (.expr (.set m e x e'))) s (.node (.expr e')) t
  | argument {e : Expr} {es : List Expr} {s : State} :
    Leads (.arguments (e :: es)) s (.node (.expr e)) s
  | nextArgument {e : Expr} {es : List Expr} {v : Value} {s t : State}
    (he : e.Ends s (.ok v) t) : Leads (.arguments (e :: es)) s (.arguments es) t
  | block {m : Mark} {ss : List Stmt} {s : State} :
    Leads (.node (.stmt (.block m ss))) s (.body ss) { s with env := s.env.push }
  | thenBranch {m : Mark} {c : Expr} {a : Stmt} {b : Option Stmt} {v : Value} {s t : State}
    (hc : c.Ends s (.ok v) t) (hv : v.truthy = true) :
    Leads (.node (.stmt (.ifElse m c a b))) s (.node (.stmt a)) t
  | elseBranch {m : Mark} {c : Expr} {a b : Stmt} {v : Value} {s t : State}
    (hc : c.Ends s (.ok v) t) (hv : v.truthy = false) :
    Leads (.node (.stmt (.ifElse m c a (some b)))) s (.node (.stmt b)) t
  | turn {m : Mark} {c : Expr} {b : Stmt} {v : Value} {s t : State}
    (hc : c.Ends s (.ok v) t) (hv : v.truthy = true) :
    Leads (.node (.stmt (.whileDo m c b))) s (.node (.stmt b)) t
  | nextTurn {m : Mark} {c : Expr} {b : Stmt} {v : Value} {s t u : State}
    (hc : c.Ends s (.ok v) t) (hv : v.truthy = true) (hb : b.Ends t (.ok .next) u) :
    Leads (.node (.stmt (.whileDo m c b))) s (.node (.stmt (.whileDo m c b))) u
  | statement {stmt : Stmt} {ss : List Stmt} {s : State} :
    Leads (.body (stmt :: ss)) s (.node (.stmt stmt)) s
  | nextStatement {stmt : Stmt} {ss : List Stmt} {s t : State} (h : stmt.Ends s (.ok .next) t) :
    Leads (.body (stmt :: ss)) s (.body ss) t
  | topStatement {stmt : Stmt} {ss : List Stmt} {s : State} :
    Leads (.top (stmt :: ss)) s (.node (.stmt stmt)) s
  | nextTopStatement {stmt : Stmt} {ss : List Stmt} {s t : State}
    (h : stmt.Ends s (.ok .next) t) : Leads (.top (stmt :: ss)) s (.top ss) t
  | enter {f : Function} {args : List Value} {s : State} :
    Leads (.call f args) s (.body f.body) (f.entered args s)

/-- The points that a run passes from one on. -/
inductive Task.Visits (a : Task) (s : State) : Task → State → Prop
  | here : Visits a s a s
  | step {b c : Task} {t u : State} (h : Visits a s b t) (hstep : b.Leads t c u) : Visits a s c u

/-- The points of the run of a source. -/
def Session.Visits (s : Session) (source : String) (task : Task) (t : State) : Prop :=
  ∃ program, (s.read source).1 = .ok program ∧
    (Task.top program.statements).Visits { s.state with output := "", program } task t

/-- A state of a session after any number of sources, or at a point of the run of a source. -/
def State.Reached (t : State) : Prop :=
  ∃ (clock : Clock) (s : Session), (Session.start clock).Reaches s ∧
    (t = s.state ∨ ∃ source task, s.Visits source task t)

/-! ### What holds at every point -/

namespace Invariant

variable {I : Invariant} {w : I.World}

/-- The code of a task is as the invariant allows, and a function that is called and its arguments
are as it says. -/
def Covers (I : Invariant) (w : I.World) (p : Program) : Task → Prop
  | .node n => ∀ m ∈ n.nodes, I.Allows p m
  | .arguments es => ∀ m ∈ nodesEach es, I.Allows p m
  | .body ss | .top ss => ∀ m ∈ nodesAll ss, I.Allows p m
  | .call f args => I.Ok w f ∧ ∀ v ∈ args, I.Good w v

theorem ends_expr {e : Expr} {s t : State} {r : Reply} (hs : I.At w s)
    (he : ∀ m ∈ e.nodes, I.Allows s.program m) (h : e.Ends s r t) :
    I.Kept s.program w I.Good r t := by
  obtain ⟨-, fuel, hrun⟩ := h
  have hkeeps : I.Keeps s.program w I.Good (eval e) := (I.logic s.program).eval e he
  exact hkeeps.run hs hrun

theorem ends_each {es : List Expr} {s t : State} {r : Except Stop (List Value)} (hs : I.At w s)
    (hes : ∀ m ∈ nodesEach es, I.Allows s.program m) (h : EndEach es s r t) :
    I.Kept s.program w (fun w vs => ∀ v ∈ vs, I.Good w v) r t := by
  obtain ⟨-, fuel, hrun⟩ := h
  have hkeeps : I.Keeps s.program w (fun w vs => ∀ v ∈ vs, I.Good w v) (evalAll es) :=
    (I.logic s.program).evalAll es hes
  exact hkeeps.run hs hrun

theorem ends_stmt {stmt : Stmt} {s t : State} {r : Except Stop Flow} (hs : I.At w s)
    (hstmt : ∀ m ∈ stmt.nodes, I.Allows s.program m) (h : stmt.Ends s r t) :
    I.Kept s.program w (fun w flow => flow.Gives (I.Good w)) r t := by
  obtain ⟨-, fuel, hrun⟩ := h
  have hkeeps : I.Keeps s.program w (fun w flow => flow.Gives (I.Good w)) (exec fuel stmt) :=
    (I.logic s.program).exec fuel stmt hstmt
  exact hkeeps.run hs hrun

/-- From a point, the invariant is handed on to the next one. -/
theorem leads {a b : Task} {s t : State} (h : a.Leads s b t) (hs : I.At w s)
    (ha : I.Covers w s.program a) :
    ∃ w', I.Grows w w' ∧ I.At w' t ∧ I.Covers w' t.program b := by
  cases h with
  | first h => exact ⟨w, I.grows_refl w, hs, fun m hm => ha m (Node.nodes_first? h hm)⟩
  | argument =>
    obtain ⟨he, -⟩ := List.forall_mem_append.1 ha
    exact ⟨w, I.grows_refl w, hs, he⟩
  | statement | topStatement =>
    obtain ⟨hstmt, -⟩ := List.forall_mem_append.1 ha
    exact ⟨w, I.grows_refl w, hs, hstmt⟩
  | right hl | undecided hl =>
    obtain ⟨-, ha⟩ := List.forall_mem_cons.1 ha
    obtain ⟨hcl, hcr⟩ := List.forall_mem_append.1 ha
    obtain ⟨w', hw, ht, hp, -⟩ := ends_expr hs hcl hl
    exact ⟨w', hw, ht, hp ▸ hcr⟩
  | arguments hf =>
    obtain ⟨-, ha⟩ := List.forall_mem_cons.1 ha
    obtain ⟨hcf, hces⟩ := List.forall_mem_append.1 ha
    obtain ⟨w', hw, ht, hp, -⟩ := ends_expr hs hcf hf
    exact ⟨w', hw, ht, hp ▸ hces⟩
  | call hf hes =>
    obtain ⟨-, ha⟩ := List.forall_mem_cons.1 ha
    obtain ⟨hcf, hces⟩ := List.forall_mem_append.1 ha
    obtain ⟨w', hw, ht, hp, hgood⟩ := ends_expr hs hcf hf
    obtain ⟨w'', hw', hu, -, hargs⟩ := ends_each ht (hp ▸ hces) hes
    exact ⟨w'', I.grows_trans hw hw', hu, I.ok_mono hw' hgood.each, hargs⟩
  | value he =>
    obtain ⟨-, ha⟩ := List.forall_mem_cons.1 ha
    obtain ⟨hce, hcv⟩ := List.forall_mem_append.1 ha
    obtain ⟨w', hw, ht, hp, -⟩ := ends_expr hs hce he
    exact ⟨w', hw, ht, hp ▸ hcv⟩
  | nextArgument he =>
    obtain ⟨hce, hces⟩ := List.forall_mem_append.1 ha
    obtain ⟨w', hw, ht, hp, -⟩ := ends_expr hs hce he
    exact ⟨w', hw, ht, hp ▸ hces⟩
  | block =>
    obtain ⟨-, ha⟩ := List.forall_mem_cons.1 ha
    obtain ⟨w', hw, ht⟩ := hs.push
    exact ⟨w', hw, ht, ha⟩
  | thenBranch hc =>
    obtain ⟨-, ha⟩ := List.forall_mem_cons.1 ha
    obtain ⟨ha, -⟩ := List.forall_mem_append.1 ha
    obtain ⟨hcc, hct⟩ := List.forall_mem_append.1 ha
    obtain ⟨w', hw, ht, hp, -⟩ := ends_expr hs hcc hc
    exact ⟨w', hw, ht, hp ▸ hct⟩
  | elseBranch hc =>
    obtain ⟨-, ha⟩ := List.forall_mem_cons.1 ha
    obtain ⟨ha, hce⟩ := List.forall_mem_append.1 ha
    obtain ⟨hcc, -⟩ := List.forall_mem_append.1 ha
    obtain ⟨w', hw, ht, hp, -⟩ := ends_expr hs hcc hc
    exact ⟨w', hw, ht, hp ▸ hce⟩
  | turn hc =>
    obtain ⟨-, ha⟩ := List.forall_mem_cons.1 ha
    obtain ⟨hcc, hcb⟩ := List.forall_mem_append.1 ha
    obtain ⟨w', hw, ht, hp, -⟩ := ends_expr hs hcc hc
    exact ⟨w', hw, ht, hp ▸ hcb⟩
  | nextTurn hc hv hb =>
    obtain ⟨-, hcb⟩ := List.forall_mem_cons.1 ha
    obtain ⟨hcc, hcb⟩ := List.forall_mem_append.1 hcb
    obtain ⟨w', hw, ht, hp, -⟩ := ends_expr hs hcc hc
    obtain ⟨w'', hw', hu, hp', -⟩ := ends_stmt ht (hp ▸ hcb) hb
    exact ⟨w'', I.grows_trans hw hw', hu, hp'.trans hp ▸ ha⟩
  | nextStatement h | nextTopStatement h =>
    obtain ⟨hstmt, hrest⟩ := List.forall_mem_append.1 ha
    obtain ⟨w', hw, ht, hp, -⟩ := ends_stmt hs hstmt h
    exact ⟨w', hw, ht, hp ▸ hrest⟩
  | enter =>
    obtain ⟨hf, hargs⟩ := ha
    obtain ⟨w', hw, ht⟩ := hs.entered hf hargs
    exact ⟨w', hw, ht, I.made_body hf⟩

/-- At every point of a run, the invariant holds in a world that has grown since the start. -/
theorem visits {a b : Task} {s t : State} (h : a.Visits s b t) (hs : I.At w s)
    (ha : I.Covers w s.program a) :
    ∃ w', I.Grows w w' ∧ I.At w' t ∧ I.Covers w' t.program b := by
  induction h with
  | here => exact ⟨w, I.grows_refl w, hs, ha⟩
  | step _ hstep ih =>
    obtain ⟨w', hw, ht, hb⟩ := ih
    obtain ⟨w'', hw', hu, hc⟩ := leads hstep ht hb
    exact ⟨w'', I.grows_trans hw hw', hu, hc⟩

end Invariant

end Lox
