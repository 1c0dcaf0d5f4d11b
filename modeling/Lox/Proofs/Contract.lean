import Lox.Execution

/-!
# Contracts of calls

A program logic for actions. A contract says in which states a function may be called with which
arguments, and how these, the result and the state after the call are related. A step
meets a contract if it calls functions only where they may be called, and ends as a condition
says whenever these calls keep the contract.

* `Contract`, `Contract.Sound`: the body of every function keeps the contract;
* `Step.Meets`, with its rules for `bind` and `adjust`;
* `Function.apply_eq`: a call as a run of the body between two changes of the state;
* `Step.run_bind`, `Action.run_bind`: a run of one action after the other; `Step.run_adjust`;
* `Step.called`: the functions that a run calls;
* `Contract.SoundFor.run`, `Contract.Sound.run`: what a step ends with, if it is run with all its
  calls.
-/

namespace Lox

/-- When a function may be called, and what a call does. -/
structure Contract where
  pre : Function → List Value → State → Prop
  post : Function → List Value → State → Reply → State → Prop

variable {α β : Type} {C : Contract}

/-- The ends of a step satisfy `Q`, if the calls that it asks for keep the contract. -/
def Step.Meets (C : Contract) (Q : Except Stop α → State → Prop) : Step α → Prop
  | .done a s => Q (.ok a) s
  | .stop e s => Q (.error e) s
  | .call f args s k => C.pre f args s ∧ ∀ r t, C.post f args s r t → (k r t).Meets C Q

namespace Step

theorem Meets.mono {Q R : Except Stop α → State → Prop} {x : Step α} (hx : x.Meets C Q)
    (h : ∀ r t, Q r t → R r t) : x.Meets C R := by
  induction x with
  | done a s => exact h _ _ hx
  | stop e s => exact h _ _ hx
  | call f args s k ih => exact ⟨hx.1, fun r t hr => ih r t (hx.2 r t hr)⟩

theorem Meets.bind {Q : Except Stop α → State → Prop} {R : Except Stop β → State → Prop}
    {x : Step α} {g : α → State → Step β} (hx : x.Meets C Q)
    (hok : ∀ a s, Q (.ok a) s → (g a s).Meets C R)
    (herr : ∀ e s, Q (.error e) s → R (.error e) s) : (x.bind g).Meets C R := by
  induction x with
  | done a s => exact hok a s hx
  | stop e s => exact herr e s hx
  | call f args s k ih => exact ⟨hx.1, fun r t hr => ih r t (hx.2 r t hr)⟩

theorem Meets.adjust {Q R : Except Stop α → State → Prop} {reason : Stop → Stop}
    {after : State → State} {x : Step α} (hx : x.Meets C Q)
    (hok : ∀ a s, Q (.ok a) s → R (.ok a) (after s))
    (herr : ∀ e s, Q (.error e) s → R (.error (reason e)) (after s)) :
    (x.adjust reason after).Meets C R := by
  induction x with
  | done a s => exact hok a s hx
  | stop e s => exact herr e s hx
  | call f args s k ih => exact ⟨hx.1, fun r t hr => ih r t (hx.2 r t hr)⟩

/-- What an end satisfies for every index, it satisfies for all of them at once. -/
theorem Meets.all {ι : Type} [Nonempty ι] {Q : ι → Except Stop α → State → Prop} {x : Step α}
    (hx : ∀ i, x.Meets C (Q i)) : x.Meets C fun r t => ∀ i, Q i r t := by
  induction x with
  | done a s => exact hx
  | stop e s => exact hx
  | call f args s k ih =>
    exact ⟨(hx Classical.ofNonempty).1, fun r t hr => ih r t fun i => (hx i).2 r t hr⟩

theorem meets_ofReply {Q : Reply → State → Prop} {r : Reply} {s : State} (h : Q r s) :
    (ofReply r s).Meets C Q := by
  cases r with
  | ok v => exact h
  | error e => exact h

end Step

/-! ### What a call does -/

theorem Step.adjust_adjust (x : Step α) (reason reason' : Stop → Stop)
    (after after' : State → State) :
    (x.adjust reason after).adjust reason' after' =
      x.adjust (reason' ∘ reason) (after' ∘ after) := by
  induction x with
  | done => rfl
  | stop => rfl
  | call f args s k ih => simp [Step.adjust, ih]

/-- The state in which the body of a function starts. -/
def Function.entered (f : Function) (args : List Value) (s : State) : State :=
  { s with env := f.enter args s.env, depth := s.depth + 1, program := f.program }

/-- The state after a body that was started in the state `s` and ended in the state `t`. -/
def State.returned (s t : State) : State :=
  { t with env := t.env.enter s.env.scope, depth := t.depth - 1, program := s.program }

/-- A call runs the body of the function, and then goes back to where it was asked for. -/
theorem Function.apply_eq (fuel : Nat) (f : Function) (args : List Value) (s : State) :
    f.apply fuel args s = ((execAll fuel f.body (f.entered args s)).adjust id s.returned).bind
      fun flow t => flow.returned t := by
  rw [apply, Action.bind_apply, counted, within, inProgram, Step.adjust_adjust,
    Step.adjust_adjust]
  rfl

/-! ### Runs of compound actions -/

theorem Step.run_call (fuel : Nat) (f : Function) (args : List Value) (s : State)
    (k : Reply → State → Step α) : (Step.call f args s k).run fuel =
      (k (Lox.runCalls fuel fuel [] (f.apply fuel args s)).1
        (Lox.runCalls fuel fuel [] (f.apply fuel args s)).2).run fuel :=
  rfl

theorem Step.run_bind (fuel : Nat) (x : Step α) (g : α → State → Step β) :
    (x.bind g).run fuel = match x.run fuel with
      | (.ok a, t) => (g a t).run fuel
      | (.error e, t) => (.error e, t) := by
  induction x with
  | done => rfl
  | stop => rfl
  | call f args s k ih =>
    rw [Step.bind, Step.run_call, Step.run_call]
    exact ih _ _

theorem Step.run_adjust (fuel : Nat) (x : Step α) (reason : Stop → Stop)
    (after : State → State) : (x.adjust reason after).run fuel = match x.run fuel with
      | (.ok a, t) => (.ok a, after t)
      | (.error e, t) => (.error (reason e), after t) := by
  induction x with
  | done => rfl
  | stop => rfl
  | call f args s k ih =>
    rw [Step.adjust, Step.run_call, Step.run_call]
    exact ih _ _

theorem Action.run_bind (fuel : Nat) (x : Action α) (g : α → Action β) (s : State) :
    (x >>= g).run fuel s = match x.run fuel s with
      | (.ok a, t) => (g a).run fuel t
      | (.error e, t) => (.error e, t) := by
  unfold Action.run
  rw [bind_apply]
  exact Step.run_bind fuel (x s) g

/-- A call takes one step down and one step back, beside those of the body and of what is done
afterwards. -/
theorem runCalls_call {fuel n n' : Nat} {f : Function} {args : List Value} {s t u : State}
    {k : Resumption} {r q : Reply}
    (hcall : ∀ m stack,
      runCalls fuel (n + m) stack (f.apply fuel args s) = runCalls fuel m stack (.ofReply r t))
    (hrest : ∀ m stack,
      runCalls fuel (n' + m) stack (k r t) = runCalls fuel m stack (.ofReply q u))
    (m : Nat) (stack : List Resumption) :
    runCalls fuel (n + n' + 2 + m) stack (.call f args s k) =
      runCalls fuel m stack (.ofReply q u) :=
  calc runCalls fuel (n + n' + 2 + m) stack (.call f args s k)
    _ = runCalls fuel (n + (n' + m + 1) + 1) stack (.call f args s k) := by congr 1; omega
    _ = runCalls fuel (n' + m + 1) (k :: stack) (.ofReply r t) := hcall _ (k :: stack)
    _ = runCalls fuel (n' + m) stack (k r t) := by cases r <;> rfl
    _ = runCalls fuel m stack (.ofReply q u) := hrest m stack

/-! ### The functions that a run calls -/

/-- The functions that are called while a step is run, and what is to be done after it. -/
def callsIn (fuel : Nat) : (n : Nat) → List Resumption → Step Value → List Function
  | 0, _, _ => []
  | n + 1, stack, .call f args s k => f :: callsIn fuel n (k :: stack) (f.apply fuel args s)
  | _ + 1, [], .done _ _ => []
  | _ + 1, [], .stop _ _ => []
  | n + 1, k :: stack, .done v s => callsIn fuel n stack (k (.ok v) s)
  | n + 1, k :: stack, .stop e s => callsIn fuel n stack (k (.error e) s)

/-- The functions that are called while a step is run to its end, with the calls that it asks
for. -/
def Step.called (fuel : Nat) : Step α → List Function
  | .done _ _ => []
  | .stop _ _ => []
  | .call f args s k =>
    match runCalls fuel fuel [] (f.apply fuel args s) with
    | (r, t) => f :: (callsIn fuel fuel [] (f.apply fuel args s) ++ (k r t).called fuel)

/-! ### Sound contracts -/

/-- The bodies of certain functions keep a contract, and giving up is no breach of it. -/
structure Contract.SoundFor (C : Contract) (A : Function → Prop) (fuel : Nat) : Prop where
  body : ∀ f args s, A f → C.pre f args s → (f.apply fuel args s).Meets C (C.post f args s)
  giveUp : ∀ f args s t, C.post f args s (.error .outOfFuel) t

/-- The bodies of functions keep a contract, and giving up is no breach of it. -/
structure Contract.Sound (C : Contract) (fuel : Nat) : Prop where
  body : ∀ f args s, C.pre f args s → (f.apply fuel args s).Meets C (C.post f args s)
  giveUp : ∀ f args s t, C.post f args s (.error .outOfFuel) t

/-- What holds of the result of a call and the state after it. -/
abbrev Condition := Reply → State → Prop

/-- What waits for a call that ends as `P` says leads, through the calls around it, to an end as `Q`
says. -/
inductive Awaits (C : Contract) (Q : Condition) : Condition → List Resumption → Prop
  | nil : Awaits C Q Q []
  | cons {P P' : Condition} {k : Resumption} {stack : List Resumption}
      (head : ∀ r t, P r t → (k r t).Meets C P') (tail : Awaits C Q P' stack) :
      Awaits C Q P (k :: stack)

namespace Contract.SoundFor

variable {A : Function → Prop} {fuel : Nat}

theorem runCalls (hC : C.SoundFor A fuel) {n : Nat} {P Q : Condition} {stack : List Resumption}
    {x : Step Value} (hA : ∀ f ∈ callsIn fuel n stack x, A f) (hx : x.Meets C P)
    (hs : Awaits C Q P stack) (hQ : ∀ t, Q (.error .outOfFuel) t) :
    Q (Lox.runCalls fuel n stack x).1 (Lox.runCalls fuel n stack x).2 := by
  -- `P` is what the call on top ends with, `Q` what the one at the bottom ends with
  induction n generalizing P stack x with
  | zero => exact hQ _
  | succ n ih =>
    cases x with
    | call f args t k =>
      rw [callsIn, List.forall_mem_cons] at hA
      exact ih hA.2 (hC.body f args t hA.1 hx.1) (.cons hx.2 hs)
    | done v t =>
      cases hs with
      | nil => exact hx
      | cons head tail => exact ih hA (head _ _ hx) tail
    | stop e t =>
      cases hs with
      | nil => exact hx
      | cons head tail => exact ih hA (head _ _ hx) tail

/-- A step that meets a contract ends as it says, if the contract is sound for all functions that
are called. -/
theorem run (hC : C.SoundFor A fuel) {Q : Except Stop α → State → Prop} {x : Step α}
    (hA : ∀ f ∈ x.called fuel, A f) (hx : x.Meets C Q) : Q (x.run fuel).1 (x.run fuel).2 := by
  induction x with
  | done a s => exact hx
  | stop e s => exact hx
  | call f args s k ih =>
    simp only [Step.called, List.forall_mem_cons, List.forall_mem_append] at hA
    obtain ⟨hf, hcalls, hrest⟩ := hA
    have hcall := hC.runCalls hcalls (hC.body f args s hf hx.1) .nil (hC.giveUp f args s)
    exact ih _ _ hrest (hx.2 _ _ hcall)

end Contract.SoundFor

/-- A step that meets a sound contract ends as it says. -/
theorem Contract.Sound.run {fuel : Nat} (hC : C.Sound fuel) {Q : Except Stop α → State → Prop}
    {x : Step α} (hx : x.Meets C Q) : Q (x.run fuel).1 (x.run fuel).2 := by
  have hall : C.SoundFor (fun _ => True) fuel := ⟨fun f args s _ => hC.body f args s, hC.giveUp⟩
  exact hall.run (fun _ _ => trivial) hx

end Lox
