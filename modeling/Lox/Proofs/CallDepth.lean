import Lox.Proofs.ExecutionPoints
import Lox.Proofs.Restoration

/-!
# How many bodies are running

A state counts the function bodies that are being run. The count is kept by hand, one more where a
body starts and one less where it ends. At every point of a run it is the number of the bodies that
have been entered on the way to the point and not been left.

* `Task.Nests`, `Session.Nests`: the points of a run, with the functions whose bodies are running;
* `Task.visits_iff`: these are all points;
* `Expr.Ends.depth`, `Stmt.Ends.depth`: what code does between start and end is not counted;
* `Task.Nests.depth`, `Task.Nests.depth_le`: the count, and its bound.
-/

namespace Lox

/-- The point is a call, whose body has not started. -/
def Task.isCall : Task → Bool
  | call _ _ => true
  | _ => false

/-- The points that a run passes from one on, and the functions whose bodies are running there, last
entered first. -/
inductive Task.Nests (a : Task) (s : State) : List Function → Task → State → Prop
  | here : Nests a s [] a s
  | step {fs : List Function} {b c : Task} {t u : State} (h : Nests a s fs b t)
    (hb : b.isCall = false) (hstep : b.Leads t c u) : Nests a s fs c u
  | enter {fs : List Function} {f : Function} {args : List Value} {t : State}
    (h : Nests a s fs (.call f args) t) : Nests a s (f :: fs) (.body f.body) (f.entered args t)

/-- The points of the run of a source, and the functions whose bodies are running there. -/
def Session.Nests (s : Session) (source : String) (fs : List Function) (task : Task)
    (t : State) : Prop :=
  ∃ program, (s.read source).1 = .ok program ∧
    (Task.top program.statements).Nests { s.state with output := "", program } fs task t

/-! ### Ends -/

section Ends

variable {s t : State}

theorem Expr.Ends.depth {e : Expr} {r : Reply} (h : e.Ends s r t) : t.depth = s.depth := by
  obtain ⟨hr, fuel, hrun⟩ := h
  exact congrArg Place.depth ((eval_restores e).run hrun hr)

theorem EndEach.depth {es : List Expr} {r : Except Stop (List Value)} (h : EndEach es s r t) :
    t.depth = s.depth := by
  obtain ⟨hr, fuel, hrun⟩ := h
  exact congrArg Place.depth ((evalAll_restores es).run hrun hr)

theorem Stmt.Ends.depth {stmt : Stmt} {r : Except Stop Flow} (h : stmt.Ends s r t) :
    t.depth = s.depth := by
  obtain ⟨hr, fuel, hrun⟩ := h
  exact congrArg Place.depth ((exec_restores fuel stmt).run hrun hr)

end Ends

/-! ### Points -/

namespace Task

variable {a b c : Task} {s t u : State} {fs : List Function}

/-- Within a body, no body is entered or left. -/
theorem Leads.depth (h : a.Leads s b t) (ha : a.isCall = false) : t.depth = s.depth := by
  cases h with
  | first | argument | statement | topStatement | block => rfl
  | right h | undecided h | arguments h | value h | nextArgument h | thenBranch h | elseBranch h
  | turn h => exact h.depth
  | nextStatement h | nextTopStatement h => exact h.depth
  | call hf hes => exact hes.depth.trans hf.depth
  | nextTurn hc _ hb => exact hb.depth.trans hc.depth
  | enter => cases ha

/-- Only where there is room for its body, a function is called. -/
theorem Leads.depth_lt (h : a.Leads s b t) (hb : b.isCall = true) : t.depth < maxDepth := by
  cases h with
  | call _ _ _ hdepth => exact hdepth
  | _ => cases hb

theorem Leads.eq_of_isCall (h : a.Leads s b t) (ha : a.isCall = true) :
    ∃ f args, a = .call f args ∧ b = .body f.body ∧ t = f.entered args s := by
  cases h with
  | enter => exact ⟨_, _, rfl, rfl, rfl⟩
  | _ => cases ha

/-- At every point, certain bodies are running. -/
theorem visits_iff : a.Visits s b t ↔ ∃ fs, a.Nests s fs b t := by
  constructor
  · intro h
    induction h with
    | here => exact ⟨[], .here⟩
    | @step b c t u _ hstep ih =>
      obtain ⟨fs, hfs⟩ := ih
      cases hb : b.isCall with
      | false => exact ⟨fs, hfs.step hb hstep⟩
      | true =>
        -- from a call, the only way on is into the body
        obtain ⟨f, args, rfl, rfl, rfl⟩ := hstep.eq_of_isCall hb
        exact ⟨f :: fs, hfs.enter⟩
  · rintro ⟨fs, h⟩
    induction h with
    | here => exact .here
    | step _ _ hstep ih => exact ih.step hstep
    | enter _ ih => exact ih.step .enter

namespace Nests

/-- The count is the number of the bodies that are running. -/
theorem depth (h : a.Nests s fs b t) : t.depth = s.depth + fs.length := by
  induction h with
  | here => rfl
  | step _ hb hstep ih => rw [hstep.depth hb, ih]
  | @enter fs f args t _ ih =>
    show t.depth + 1 = s.depth + (fs.length + 1)
    rw [ih, Nat.add_assoc]

theorem depth_le (h : a.Nests s fs b t) (hs : s.depth ≤ maxDepth)
    (ha : a.isCall = true → s.depth < maxDepth) :
    t.depth ≤ maxDepth ∧ (b.isCall = true → t.depth < maxDepth) := by
  -- the bound is strict at a call, and the body takes up what is left
  induction h with
  | here => exact ⟨hs, ha⟩
  | step _ hb hstep ih =>
    exact ⟨Nat.le_trans (Nat.le_of_eq (hstep.depth hb)) ih.1, hstep.depth_lt⟩
  | enter _ ih => exact ⟨ih.2 rfl, nofun⟩

/-- What is passed from a next point on, is passed from the point before. -/
theorem of_leads (hstep : a.Leads s b t) (ha : a.isCall = false) (h : b.Nests t fs c u) :
    a.Nests s fs c u := by
  induction h with
  | here => exact .step .here ha hstep
  | step _ hb hstep' ih => exact ih.step hb hstep'
  | enter _ ih => exact ih.enter

/-- What is passed in the body of a function, is passed after a call of it. -/
theorem of_body {f : Function} {args : List Value}
    (h : (Task.body f.body).Nests (f.entered args s) fs c u) :
    (Task.call f args).Nests s (fs ++ [f]) c u := by
  induction h with
  | here => exact .enter .here
  | step _ hb hstep ih => exact ih.step hb hstep
  | enter _ ih => exact ih.enter

end Nests

end Task

namespace Session

variable {s : Session} {source : String} {task : Task} {t : State}

theorem visits_iff : s.Visits source task t ↔ ∃ fs, s.Nests source fs task t := by
  simp only [Visits, Nests, Task.visits_iff]
  constructor
  · rintro ⟨program, hread, fs, h⟩
    exact ⟨fs, program, hread, h⟩
  · rintro ⟨fs, program, hread, h⟩
    exact ⟨program, hread, fs, h⟩

/-- In a session, no body is running between the sources. -/
theorem Nests.depth {fs : List Function} (h : s.Nests source fs task t) (hs : s.state.depth = 0) :
    t.depth = fs.length ∧ fs.length ≤ maxDepth := by
  obtain ⟨program, -, h⟩ := h
  have hdepth := h.depth
  have hle := (h.depth_le (by simp [hs]) nofun).1
  simp only [hs, Nat.zero_add] at hdepth
  exact ⟨hdepth, hdepth ▸ hle⟩

end Session

end Lox
