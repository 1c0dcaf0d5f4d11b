import Lox.Proofs.Independence
import Lox.Session

/-!
# Fuel

Fuel that suffices for a run suffices for it in whatever larger amount, and the run is the same. So
a source has one outcome at most.

* `Step.Strict`: a step that gives up when a call has given up;
* `Step.Refines`: one step does what another one does, unless that has no fuel left, with its rules
  for `bind` and `adjust`;
* `exec_refines`, `Function.apply_refines`, `Step.Refines.run`: statements, calls and runs with more
  fuel;
* `Session.run_mono`, `Session.Ends.unique`.
-/

namespace Lox

variable {α β : Type}

namespace Step

/-- When a call has no fuel left, nothing is done after it. -/
def Strict : Step α → Prop
  | .done _ _ | .stop _ _ => True
  | .call _ _ _ k => (∀ s, (k (.error .outOfFuel) s).Exhausted) ∧ ∀ r s, (k r s).Strict

theorem Exhausted.strict {x : Step α} (h : x.Exhausted) : x.Strict := by
  cases x with
  | stop => trivial
  | _ => cases h

/-- What is comparable with something is strict. -/
theorem Like.strict {R : α → β → Prop} {x : Step α} {y : Step β} (h : x.Like "" "" R y) :
    x.Strict := by
  induction h with
  | done | error => trivial
  | exhausted hx => exact hx.strict
  | call _ _ _ strict _ ih =>
    refine ⟨strict, fun r s => ?_⟩
    have hs : s.Alike "" "" s := ⟨rfl, s.output, by simp, by simp⟩
    match r with
    | .ok v => exact ih _ (.ok v) s s (.ok rfl) hs
    | .error (.error e) => exact ih _ (.error (.error e)) s s (.error rfl) hs
    | .error .outOfFuel => exact (strict s).strict

/-- The second of two steps does exactly what the first one does, unless that one has no fuel
left. -/
inductive Refines : Step α → Step α → Prop
  | done {a : α} {s : State} : Refines (.done a s) (.done a s)
  | stop {e : Stop} {s : State} : Refines (.stop e s) (.stop e s)
  | exhausted {x y : Step α} (h : x.Exhausted) : Refines x y
  | call {f : Function} {args : List Value} {s : State} {k l : Reply → State → Step α}
      (strict : ∀ s, (k (.error .outOfFuel) s).Exhausted)
      (resume : ∀ r s, Refines (k r s) (l r s)) : Refines (.call f args s k) (.call f args s l)

theorem Strict.refines {x : Step α} (h : x.Strict) : x.Refines x := by
  induction x with
  | done => exact .done
  | stop => exact .stop
  | call f args s k ih => exact .call h.1 fun r t => ih r t (h.2 r t)

namespace Refines

theorem bind {x y : Step α} {g h : α → State → Step β} (hxy : x.Refines y)
    (hgh : ∀ a s, (g a s).Refines (h a s)) : (x.bind g).Refines (y.bind h) := by
  induction hxy with
  | done => exact hgh _ _
  | stop => exact .stop
  | exhausted hx => exact .exhausted (hx.bind g)
  | call strict resume ih => exact .call (fun s => (strict s).bind g) ih

theorem adjust {x y : Step α} (hxy : x.Refines y) {reason : Stop → Stop}
    (hreason : reason .outOfFuel = .outOfFuel) (after : State → State) :
    (x.adjust reason after).Refines (y.adjust reason after) := by
  induction hxy with
  | done => exact .done
  | stop => exact .stop
  | exhausted hx => exact .exhausted (hx.adjust hreason after)
  | call strict resume ih => exact .call (fun s => (strict s).adjust hreason after) ih

end Refines

end Step

/-! ### Actions with more fuel -/

/-- The second of two actions does exactly what the first one does, unless that one runs out of
fuel. -/
def Action.Refines (x y : Action α) : Prop := ∀ s, (x s).Refines (y s)

theorem pure_refines (a : α) : (pure a : Action α).Refines (pure a) := fun _ => .done

theorem stopWith_refines (e : Stop) : (stopWith e : Action α).Refines (stopWith e) :=
  fun _ => .stop

theorem Action.Refines.bind {x y : Action α} {g h : α → Action β} (hxy : x.Refines y)
    (hgh : ∀ a, (g a).Refines (h a)) : (x >>= g).Refines (y >>= h) := by
  intro s
  rw [bind_apply, bind_apply]
  exact (hxy s).bind hgh

/-- What does not depend on fuel does the same with more of it. -/
theorem Action.Like.refines {R : α → α → Prop} {x : Action α} (h : x.Like "" "" R x) :
    x.Refines x :=
  fun s => (h s s ⟨rfl, s.output, by simp, by simp⟩).strict.refines

theorem eval_refines (e : Expr) : (eval e).Refines (eval e) := (eval_like e e rfl).refines

theorem repeatWhile_refines {condition : Action Value} {body body' : Action Flow}
    (hc : condition.Refines condition) (hb : body.Refines body') {n n' : Nat} (hn : n ≤ n') :
    (repeatWhile condition body n).Refines (repeatWhile condition body' n') := by
  induction n generalizing n' with
  | zero => exact fun _ => .exhausted trivial
  | succ n ih =>
    obtain ⟨m, rfl⟩ : ∃ m, n' = m + 1 := ⟨n' - 1, by omega⟩
    rw [repeatWhile, repeatWhile]
    refine hc.bind fun v => ?_
    split
    · refine hb.bind fun flow => ?_
      cases flow with
      | next => exact ih (by omega)
      | leave => exact pure_refines _
      | result v => exact pure_refines _
    · exact pure_refines _

variable {fuel fuel' : Nat}

theorem exec_refines_of_eq {s : Stmt} (h : exec fuel' s = exec fuel s) :
    (exec fuel s).Refines (exec fuel' s) := by
  rw [h]
  exact (exec_like (Nat.le_refl fuel) s s rfl).refines

mutual

/-- Only blocks, branches and loops pass fuel on. -/
theorem exec_refines (hle : fuel ≤ fuel') : ∀ s : Stmt, (exec fuel s).Refines (exec fuel' s)
  | .block _ body => by
    rw [exec, exec]
    exact fun s => (execAll_refines hle body _).adjust rfl _
  | .ifElse _ c t e => by
    rw [exec, exec]
    refine (eval_refines c).bind fun v => ?_
    split
    · exact exec_refines hle t
    · exact execOption_refines hle e
  | .whileDo _ c b => by
    rw [exec, exec]
    exact repeatWhile_refines (eval_refines c) (exec_refines hle b) hle
  | .expression _ _ | .print _ _ | .varDecl _ _ _ | .funDecl _ _ _ _ | .returns _ _
  | .breaks _ _ | .classDecl _ _ => exec_refines_of_eq (by rw [exec, exec])

theorem execOption_refines (hle : fuel ≤ fuel') :
    ∀ s : Option Stmt, (execOption fuel s).Refines (execOption fuel' s)
  | none => by
    rw [execOption, execOption]
    exact pure_refines _
  | some s => by
    rw [execOption, execOption]
    exact exec_refines hle s

theorem execAll_refines (hle : fuel ≤ fuel') :
    ∀ ss : List Stmt, (execAll fuel ss).Refines (execAll fuel' ss)
  | [] => by
    rw [execAll, execAll]
    exact pure_refines _
  | s :: rest => by
    rw [execAll, execAll]
    refine (exec_refines hle s).bind fun flow => ?_
    cases flow with
    | next => exact execAll_refines hle rest
    | leave => exact pure_refines _
    | result v => exact pure_refines _

end

theorem runStatements_refines (hle : fuel ≤ fuel') (ss : List Stmt) :
    (runStatements fuel ss).Refines (runStatements fuel' ss) := by
  induction ss with
  | nil => exact pure_refines _
  | cons s ss ih =>
    rw [runStatements, runStatements]
    refine (exec_refines hle s).bind fun flow => ?_
    cases flow with
    | next => exact ih
    | leave => exact stopWith_refines _
    | result v => exact stopWith_refines _

/-! ### Runs with more fuel -/

theorem Function.apply_refines (hle : fuel ≤ fuel') (f : Function) (args : List Value) :
    (f.apply fuel args).Refines (f.apply fuel' args) := by
  intro s
  rw [apply_eq, apply_eq]
  refine ((execAll_refines hle f.body _).adjust rfl _).bind fun flow t => ?_
  cases flow with
  | next => exact .done
  | result v => exact .done
  | leave => exact .stop

/-- What is to be done after calls, if there is more fuel for it. -/
structure Resumption.Refines (k l : Resumption) : Prop where
  strict : ∀ s, (k (.error .outOfFuel) s).Exhausted
  resume : ∀ r s, (k r s).Refines (l r s)

theorem Resumption.Refines.strict_of_mem {stack stack' : List Resumption}
    (hstack : List.Forall₂ Resumption.Refines stack stack') :
    ∀ k ∈ stack, ∀ s, (k (.error .outOfFuel) s).Exhausted := by
  induction hstack with
  | nil => simp
  | cons head tail ih => exact List.forall_mem_cons.2 ⟨head.strict, ih⟩

theorem runCalls_refines (hle : fuel ≤ fuel') {n n' : Nat} (hn : n ≤ n')
    {stack stack' : List Resumption} {x y : Step Value} (hxy : x.Refines y)
    (hstack : List.Forall₂ Resumption.Refines stack stack') :
    (runCalls fuel n stack x).1 = .error .outOfFuel ∨
      runCalls fuel n stack x = runCalls fuel' n' stack' y := by
  -- each turn takes a resumption off either stack, or puts one on it
  induction n generalizing n' stack stack' x y with
  | zero => exact .inl rfl
  | succ n ih =>
    obtain ⟨m, rfl⟩ : ∃ m, n' = m + 1 := ⟨n' - 1, by omega⟩
    have hm : n ≤ m := by omega
    cases hxy with
    | done =>
      cases hstack with
      | nil => exact .inr rfl
      | cons head tail => exact ih hm (head.resume _ _) tail
    | stop =>
      cases hstack with
      | nil => exact .inr rfl
      | cons head tail => exact ih hm (head.resume _ _) tail
    | exhausted hx => exact .inl (runCalls_exhausted hx (Resumption.Refines.strict_of_mem hstack))
    | call strict resume =>
      exact ih hm (Function.apply_refines hle _ _ _) (.cons ⟨strict, resume⟩ hstack)

/-- Fuel that suffices for a step, suffices for it in a larger amount. -/
theorem Step.Refines.run (hle : fuel ≤ fuel') {x y : Step α} (hxy : x.Refines y) :
    (x.run fuel).1 = .error .outOfFuel ∨ x.run fuel = y.run fuel' := by
  induction hxy with
  | done => exact .inr rfl
  | stop => exact .inr rfl
  | exhausted hx => exact .inl (hx.run fuel)
  | call strict resume ih =>
    rename_i f args s k l
    rw [Step.run_call, Step.run_call]
    rcases runCalls_refines hle hle (f.apply_refines hle args s) .nil with hfuel | heq
    · rw [hfuel]
      exact .inl ((strict _).run fuel)
    · rw [← heq]
      exact ih _ _

theorem Step.Refines.run_eq (hle : fuel ≤ fuel') {x y : Step α} (hxy : x.Refines y)
    {r : Except Stop α} {t : State} (hrun : x.run fuel = (r, t)) (hr : r ≠ .error .outOfFuel) :
    y.run fuel' = (r, t) := by
  rcases hxy.run hle with hfuel | heq
  · exact absurd ((congrArg Prod.fst hrun).symm.trans hfuel) hr
  · exact heq.symm.trans hrun

namespace Session

theorem runProgram_mono (hle : fuel ≤ fuel') {s : Session} {program : Program} {o : Outcome}
    (h : s.runProgram fuel program = some o) : s.runProgram fuel' program = some o := by
  obtain ⟨r, t, hrun, hr, rfl⟩ := runProgram_eq_some_iff.1 h
  have hmore := (runStatements_refines hle program.statements _).run_eq hle hrun hr
  exact runProgram_eq_some_iff.2 ⟨r, t, hmore, hr, rfl⟩

/-- What a source does with some fuel, it does with more. -/
theorem run_mono (hle : fuel ≤ fuel') {s : Session} {source : String} {o : Outcome}
    (h : s.run fuel source = some o) : s.run fuel' source = some o := by
  rcases run_eq_some_iff.1 h with hreject | ⟨program, hread, hrun⟩
  · exact run_eq_some_iff.2 (.inl hreject)
  · exact run_eq_some_iff.2 (.inr ⟨program, hread, runProgram_mono hle hrun⟩)

/-- A source has one outcome at most. -/
theorem Ends.unique {s : Session} {source : String} {o o' : Outcome} (h : s.Ends source o)
    (h' : s.Ends source o') : o = o' := by
  obtain ⟨fuel, hrun⟩ := h
  obtain ⟨fuel', hrun'⟩ := h'
  have hmax := run_mono (Nat.le_max_left fuel fuel') hrun
  exact Option.some.inj (hmax.symm.trans (run_mono (Nat.le_max_right fuel fuel') hrun'))

end Session

end Lox
