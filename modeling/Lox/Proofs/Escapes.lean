import Lox.Proofs.Contract

/-!
# How statements may end

A `break` leaves the nearest loop around it, a `return` the nearest function. So a statement ends by
one of them only if there is one in it that nothing in the statement takes up, whatever functions it
calls.

* `Stmt.mayBreak`, `Stmt.mayReturn`: what can be seen in the source;
* `Action.Yields`: the results of an action, whatever calls result in, with its rules;
* `exec_yields`, `Stmt.Ends.within`: how statements end.
-/

namespace Lox

/-! ### What can be seen in the source -/

mutual

/-- Whether a statement has a `break` in it that is not in a loop within it. Those in functions that
it makes are not its own. -/
def Stmt.mayBreak : Stmt → Bool
  | .breaks _ _ => true
  | .block _ body => mayBreakAll body
  | .ifElse _ _ t e => t.mayBreak || mayBreakElse e
  | _ => false

/-- Whether a branch that may be missing has such a `break`. -/
def mayBreakElse : Option Stmt → Bool
  | none => false
  | some s => s.mayBreak

/-- Whether one of several statements has such a `break`. -/
def mayBreakAll : List Stmt → Bool
  | [] => false
  | s :: ss => s.mayBreak || mayBreakAll ss

end

mutual

/-- Whether a statement has a `return` in it. Those in functions that it makes are not its own. -/
def Stmt.mayReturn : Stmt → Bool
  | .returns _ _ => true
  | .block _ body => mayReturnAll body
  | .ifElse _ _ t e => t.mayReturn || mayReturnElse e
  | .whileDo _ _ b => b.mayReturn
  | _ => false

/-- Whether a branch that may be missing has such a `return`. -/
def mayReturnElse : Option Stmt → Bool
  | none => false
  | some s => s.mayReturn

/-- Whether one of several statements has such a `return`. -/
def mayReturnAll : List Stmt → Bool
  | [] => false
  | s :: ss => s.mayReturn || mayReturnAll ss

end

/-! ### How statements end -/

variable {α β : Type}

/-- The results of a step are of a sort, whatever the calls that it asks for result in. -/
def Step.Yields (R : α → Prop) : Step α → Prop
  | .done a _ => R a
  | .stop _ _ => True
  | .call _ _ _ k => ∀ r t, (k r t).Yields R

namespace Step

variable {R : α → Prop} {x : Step α}

theorem yields_any (x : Step α) : x.Yields fun _ => True := by
  induction x with
  | done => trivial
  | stop => trivial
  | call f args s k ih => exact ih

theorem Yields.mono {R' : α → Prop} (hx : x.Yields R) (h : ∀ a, R a → R' a) : x.Yields R' := by
  induction x with
  | done a s => exact h a hx
  | stop => trivial
  | call f args s k ih => exact fun r t => ih r t (hx r t)

theorem Yields.bind {Q : β → Prop} {g : α → State → Step β} (hx : x.Yields R)
    (hg : ∀ a s, R a → (g a s).Yields Q) : (x.bind g).Yields Q := by
  induction x with
  | done a s => exact hg a s hx
  | stop => trivial
  | call f args s k ih => exact fun r t => ih r t (hx r t)

theorem Yields.adjust (hx : x.Yields R) (reason : Stop → Stop) (after : State → State) :
    (x.adjust reason after).Yields R := by
  induction x with
  | done => exact hx
  | stop => trivial
  | call f args s k ih => exact fun r t => ih r t (hx r t)

theorem Yields.run (hx : x.Yields R) {fuel : Nat} {a : α} {t : State}
    (h : x.run fuel = (.ok a, t)) : R a := by
  induction x with
  | done b s =>
    cases h
    exact hx
  | stop e s => cases h
  | call f args s k ih => exact ih _ _ (hx _ _) h

/-- What the results are like can be added to what a contract gives. -/
theorem Meets.and_yields {C : Contract} {Q : Except Stop α → State → Prop} (hx : x.Meets C Q)
    (hR : x.Yields R) : x.Meets C fun r t => Q r t ∧ ∀ a, r = .ok a → R a := by
  induction x with
  | done a s => exact ⟨hx, fun _ h => Except.ok.inj h ▸ hR⟩
  | stop e s => exact ⟨hx, nofun⟩
  | call f args s k ih => exact ⟨hx.1, fun r t hr => ih r t (hx.2 r t hr) (hR r t)⟩

end Step

/-- The results of an action are of a sort, whatever state it starts in and whatever calls result
in. -/
def Action.Yields (R : α → Prop) (x : Action α) : Prop := ∀ s, (x s).Yields R

namespace Action.Yields

variable {R : α → Prop} {Q : β → Prop}

theorem any (x : Action α) : x.Yields fun _ => True := fun s => (x s).yields_any

theorem pure {a : α} (h : R a) : (Pure.pure a : Action α).Yields R := fun _ => h

theorem bind {x : Action α} {g : α → Action β} (hx : x.Yields R)
    (hg : ∀ a, R a → (g a).Yields Q) : (x >>= g).Yields Q := by
  intro s
  rw [bind_apply]
  exact (hx s).bind fun a t ha => hg a ha t

/-- The result of the first action does not matter. -/
theorem after (x : Action α) {g : α → Action β} (hg : ∀ a, (g a).Yields Q) :
    (x >>= g).Yields Q :=
  (any x).bind fun a _ => hg a

end Action.Yields

/-- How statements may end, if they have such a `break` and such a `return`. -/
def Flow.Within (breaks returns : Bool) : Flow → Prop
  | next => True
  | leave => breaks = true
  | result _ => returns = true

theorem Flow.Within.mono {b b' r r' : Bool} {flow : Flow} (h : flow.Within b r)
    (hb : b = true → b' = true) (hr : r = true → r' = true) : flow.Within b' r' := by
  cases flow with
  | next => trivial
  | leave => exact hb h
  | result v => exact hr h

/-- A loop takes up every `break` of its body. -/
theorem repeatWhile_yields {condition : Action Value} {body : Action Flow} {b r : Bool}
    (hb : body.Yields (Flow.Within b r)) (n : Nat) :
    (repeatWhile condition body n).Yields (Flow.Within false r) := by
  induction n with
  | zero => exact fun _ => trivial
  | succ n ih =>
    rw [repeatWhile]
    refine .after _ fun v => ?_
    split
    · refine hb.bind fun flow hflow => ?_
      cases flow with
      | next => exact ih
      | leave => exact .pure trivial
      | result v => exact .pure hflow
    · exact .pure trivial

mutual

theorem exec_yields (fuel : Nat) :
    ∀ s : Stmt, (exec fuel s).Yields (Flow.Within s.mayBreak s.mayReturn)
  | .expression _ e => by
    rw [exec]
    exact .after _ fun _ => .pure trivial
  | .print _ e => by
    rw [exec]
    exact .after _ fun _ => .after _ fun _ => .pure trivial
  | .varDecl _ x e => by
    rw [exec]
    exact .after _ fun _ => .after _ fun _ => .pure trivial
  | .block _ body => by
    rw [exec]
    exact fun s => (execAll_yields fuel body _).adjust _ _
  | .ifElse _ c t e => by
    rw [exec]
    refine .after _ fun v => ?_
    split
    · exact fun s => (exec_yields fuel t s).mono fun _ h =>
        h.mono (fun hb => by simp [Stmt.mayBreak, hb]) fun hr => by simp [Stmt.mayReturn, hr]
    · exact fun s => (execOption_yields fuel e s).mono fun _ h =>
        h.mono (fun hb => by simp [Stmt.mayBreak, hb]) fun hr => by simp [Stmt.mayReturn, hr]
  | .whileDo _ c b => by
    rw [exec]
    exact repeatWhile_yields (exec_yields fuel b) fuel
  | .funDecl _ x params body => by
    rw [exec]
    exact .after _ fun _ => .after _ fun _ => .pure trivial
  | .returns _ e => by
    rw [exec]
    exact .after _ fun _ => .pure rfl
  | .breaks _ e => by
    rw [exec]
    exact .after _ fun _ => .pure rfl
  | .classDecl _ x => by
    rw [exec]
    exact .after _ fun _ => .after _ fun _ => .pure trivial

theorem execOption_yields (fuel : Nat) :
    ∀ s : Option Stmt, (execOption fuel s).Yields (Flow.Within (mayBreakElse s) (mayReturnElse s))
  | none => by
    rw [execOption]
    exact .pure trivial
  | some s => by
    rw [execOption]
    exact exec_yields fuel s

theorem execAll_yields (fuel : Nat) :
    ∀ ss : List Stmt, (execAll fuel ss).Yields (Flow.Within (mayBreakAll ss) (mayReturnAll ss))
  | [] => by
    rw [execAll]
    exact .pure trivial
  | s :: rest => by
    rw [execAll]
    refine (exec_yields fuel s).bind fun flow hflow => ?_
    cases flow with
    | next => exact fun t => (execAll_yields fuel rest t).mono fun _ h =>
        h.mono (fun hb => by simp [mayBreakAll, hb]) fun hr => by simp [mayReturnAll, hr]
    | leave =>
      have hb : s.mayBreak = true := hflow
      exact .pure (by simp [Flow.Within, mayBreakAll, hb])
    | result v =>
      have hr : s.mayReturn = true := hflow
      exact .pure (by simp [Flow.Within, mayReturnAll, hr])

end

/-- How a statement ends tells what is in it. -/
theorem Stmt.Ends.within {stmt : Stmt} {s t : State} {flow : Flow}
    (h : stmt.Ends s (.ok flow) t) : flow.Within stmt.mayBreak stmt.mayReturn := by
  obtain ⟨-, fuel, hrun⟩ := h
  exact (exec_yields fuel stmt s).run hrun

end Lox
