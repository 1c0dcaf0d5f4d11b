import Lox.Proofs.Contract
import Lox.Proofs.UnmarkedState
import Mathlib.Data.List.Forall2

/-!
# Alike steps

One step is like another if they do the same with alike states: they end with like results, or
stop with the same fault, or ask for calls of functions that are the same but for marks, and are
alike again after like results of these calls. A step that has no fuel left is like any other, so
that the relation also compares little fuel with more.

* `Step.Like`, with its rules for `bind` and `adjust`;
* `Resumption.Like`, `Calls`: what is to be done after a call, and when calls are alike;
* `Step.Like.run`: the ends of alike steps.
-/

namespace Lox

variable {α β γ δ : Type} {base base' : String}

/-- The same result, but for what `R` leaves open, or the same fault. -/
inductive ResultLike (R : α → β → Prop) : Except Stop α → Except Stop β → Prop
  | ok {a : α} {b : β} (h : R a b) : ResultLike R (.ok a) (.ok b)
  | error {e e' : RuntimeError} (h : e.fault = e'.fault) :
      ResultLike R (.error (.error e)) (.error (.error e'))

/-- Values that are the same but for marks. -/
def ValueLike (v w : Value) : Prop := v.unmarked = w.unmarked

/-- Nothing is done without fuel. -/
def Step.Exhausted : Step α → Prop
  | .stop .outOfFuel _ => True
  | _ => False

/-- The second of two steps does what the first one does, unless that one has no fuel left. -/
inductive Step.Like (base base' : String) (R : α → β → Prop) : Step α → Step β → Prop
  | done {a : α} {b : β} {s t : State} (result : R a b) (state : s.Alike base base' t) :
      Like base base' R (.done a s) (.done b t)
  | error {e e' : RuntimeError} {s t : State} (fault : e.fault = e'.fault)
      (state : s.Alike base base' t) :
      Like base base' R (.stop (.error e) s) (.stop (.error e') t)
  | exhausted {x : Step α} {y : Step β} (h : x.Exhausted) : Like base base' R x y
  | call {f g : Function} {args args' : List Value} {s t : State} {k : Reply → State → Step α}
      {l : Reply → State → Step β} (function : f.unmarked = g.unmarked)
      (arguments : args.map Value.unmarked = args'.map Value.unmarked)
      (state : s.Alike base base' t) (strict : ∀ s, (k (.error .outOfFuel) s).Exhausted)
      (resume : ∀ r r' s t, ResultLike ValueLike r r' → s.Alike base base' t →
        Like base base' R (k r s) (l r' t)) :
      Like base base' R (.call f args s k) (.call g args' t l)

namespace Step

theorem Exhausted.bind {x : Step α} (h : x.Exhausted) (g : α → State → Step γ) :
    (x.bind g).Exhausted := by
  cases x with
  | stop e s =>
    cases e with
    | outOfFuel => trivial
    | error e => cases h
  | _ => cases h

theorem Exhausted.adjust {x : Step α} (h : x.Exhausted) {reason : Stop → Stop}
    (hreason : reason .outOfFuel = .outOfFuel) (after : State → State) :
    (x.adjust reason after).Exhausted := by
  cases x with
  | stop e s =>
    cases e with
    | outOfFuel => rw [Step.adjust, hreason]; trivial
    | error e => cases h
  | _ => cases h

theorem Exhausted.run {x : Step α} (h : x.Exhausted) (fuel : Nat) :
    (x.run fuel).1 = .error .outOfFuel := by
  cases x with
  | stop e s =>
    cases e with
    | outOfFuel => rfl
    | error e => cases h
  | _ => cases h

namespace Like

theorem bind {R : α → β → Prop} {Q : γ → δ → Prop} {x : Step α} {y : Step β}
    {g : α → State → Step γ} {h : β → State → Step δ} (hxy : x.Like base base' R y)
    (hgh : ∀ a b s t, R a b → s.Alike base base' t → (g a s).Like base base' Q (h b t)) :
    (x.bind g).Like base base' Q (y.bind h) := by
  induction hxy with
  | done result state => exact hgh _ _ _ _ result state
  | error fault state => exact .error fault state
  | exhausted hx => exact .exhausted (hx.bind g)
  | call function arguments state strict resume ih =>
    exact .call function arguments state (fun s => (strict s).bind g) ih

theorem adjust {R : α → β → Prop} {x : Step α} {y : Step β} {reason reason' : Stop → Stop}
    {after after' : State → State} (hxy : x.Like base base' R y)
    (hfuel : reason .outOfFuel = .outOfFuel)
    (herror : ∀ e e' : RuntimeError, e.fault = e'.fault → ∃ d d' : RuntimeError,
      reason (.error e) = .error d ∧ reason' (.error e') = .error d' ∧ d.fault = d'.fault)
    (hafter : ∀ s t, s.Alike base base' t → (after s).Alike base base' (after' t)) :
    (x.adjust reason after).Like base base' R (y.adjust reason' after') := by
  induction hxy with
  | done result state => exact .done result (hafter _ _ state)
  | error fault state =>
    obtain ⟨d, d', hd, hd', hfault⟩ := herror _ _ fault
    rw [Step.adjust, Step.adjust, hd, hd']
    exact .error hfault (hafter _ _ state)
  | exhausted hx => exact .exhausted (hx.adjust hfuel after)
  | call function arguments state strict resume ih =>
    exact .call function arguments state (fun s => (strict s).adjust hfuel after) ih

end Like

end Step

/-! ### Runs -/

/-- The second of two runs ends like the first one, unless that one had not enough fuel. -/
def RunLike (base base' : String) (R : α → β → Prop) (p : Except Stop α × State)
    (q : Except Stop β × State) : Prop :=
  p.1 = .error .outOfFuel ∨ ResultLike R p.1 q.1 ∧ p.2.Alike base base' q.2

/-- What is to be done after a call is alike after like results. -/
structure Resumption.Like (base base' : String) (k l : Resumption) : Prop where
  strict : ∀ s, (k (.error .outOfFuel) s).Exhausted
  resume : ∀ r r' s t, ResultLike ValueLike r r' → s.Alike base base' t →
    (k r s).Like base base' ValueLike (l r' t)

/-- Like calls with more fuel do the same. -/
def CallsLike (base base' : String) (fuel fuel' : Nat) : Prop :=
  ∀ (f g : Function) (args args' : List Value) (s t : State), f.unmarked = g.unmarked →
    args.map Value.unmarked = args'.map Value.unmarked → s.Alike base base' t →
    (f.apply fuel args s).Like base base' ValueLike (g.apply fuel' args' t)

/-- Without fuel for a step, there is none for what is to be done after it. -/
theorem runCalls_exhausted {fuel n : Nat} {stack : List Resumption} {x : Step Value}
    (hx : x.Exhausted) (hstack : ∀ k ∈ stack, ∀ s, (k (.error .outOfFuel) s).Exhausted) :
    (runCalls fuel n stack x).1 = .error .outOfFuel := by
  induction n generalizing stack x with
  | zero => rfl
  | succ n ih =>
    cases x with
    | stop e s =>
      cases e with
      | outOfFuel =>
        cases stack with
        | nil => rfl
        | cons k stack => exact ih (hstack k (by simp) s) fun l hl => hstack l (by simp [hl])
      | error e => cases hx
    | _ => cases hx

theorem Resumption.strict_of_mem {stack stack' : List Resumption}
    (hstack : List.Forall₂ (Resumption.Like base base') stack stack') :
    ∀ k ∈ stack, ∀ s, (k (.error .outOfFuel) s).Exhausted := by
  induction hstack with
  | nil => simp
  | cons head tail ih =>
    intro k hk
    rcases List.mem_cons.1 hk with rfl | hk
    · exact head.strict
    · exact ih k hk

theorem CallsLike.runCalls {fuel fuel' : Nat} (hcalls : CallsLike base base' fuel fuel')
    {n n' : Nat} (hn : n ≤ n') {stack stack' : List Resumption} {x y : Step Value}
    (hxy : x.Like base base' ValueLike y)
    (hstack : List.Forall₂ (Resumption.Like base base') stack stack') :
    RunLike base base' ValueLike (runCalls fuel n stack x) (runCalls fuel' n' stack' y) := by
  -- each turn takes a resumption off either stack, or puts one on it
  induction n generalizing n' stack stack' x y with
  | zero => exact .inl rfl
  | succ n ih =>
    obtain ⟨m, rfl⟩ : ∃ m, n' = m + 1 := ⟨n' - 1, by omega⟩
    have hm : n ≤ m := by omega
    cases hxy with
    | done result state =>
      cases hstack with
      | nil => exact .inr ⟨.ok result, state⟩
      | cons head tail => exact ih hm (head.resume _ _ _ _ (.ok result) state) tail
    | error fault state =>
      cases hstack with
      | nil => exact .inr ⟨.error fault, state⟩
      | cons head tail => exact ih hm (head.resume _ _ _ _ (.error fault) state) tail
    | exhausted hx => exact .inl (runCalls_exhausted hx (Resumption.strict_of_mem hstack))
    | call function arguments state strict resume =>
      exact ih hm (hcalls _ _ _ _ _ _ function arguments state) (.cons ⟨strict, resume⟩ hstack)

/-- Alike steps have like ends. -/
theorem Step.Like.run {fuel fuel' : Nat} (hcalls : CallsLike base base' fuel fuel')
    (hle : fuel ≤ fuel') {R : α → β → Prop} {x : Step α} {y : Step β}
    (hxy : x.Like base base' R y) : RunLike base base' R (x.run fuel) (y.run fuel') := by
  induction hxy with
  | done result state => exact .inr ⟨.ok result, state⟩
  | error fault state => exact .inr ⟨.error fault, state⟩
  | exhausted hx => exact .inl (hx.run fuel)
  | call function arguments state strict resume ih =>
    have hcall := hcalls _ _ _ _ _ _ function arguments state
    rcases hcalls.runCalls hle hcall .nil with hfuel | ⟨hresult, hstate⟩
    · refine .inl ?_
      rw [Step.run_call, hfuel]
      exact (strict _).run fuel
    · exact ih _ _ _ _ hresult hstate

end Lox
