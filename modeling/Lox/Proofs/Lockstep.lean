import Lox.Proofs.Contract

/-!
# Two runs in lockstep

Two runs of the same action from different states stay together if they ask for the same calls and
have the same results. A pact says of two states in which a function is called with the same
arguments how they have to be related, and how they and the two states after the calls are related.

* `Pact`, `Pact.Sound`: the body of every function keeps the pact;
* `Step.Locked`: two steps that stay together, with its rules for `bind` and `adjust`;
* `Pact.Sound.run`: two steps that stay together end with the same result.
-/

namespace Lox

/-- How two states are related in which a function is called, and how the calls end. -/
structure Pact where
  pre : Function → List Value → State → State → Prop
  post : Function → List Value → State → State → Reply → State → State → Prop

variable {α β : Type} {P : Pact}

/-- What holds of a common result and the two states after it. -/
abbrev Joint (α : Type) := Except Stop α → State → State → Prop

/-- Two steps that ask for the same calls, and end with the same result in states as `Q` says, if
the calls keep the pact. -/
inductive Step.Locked (P : Pact) (Q : Joint α) : Step α → Step α → Prop
  | done {a : α} {s t : State} (h : Q (.ok a) s t) : Locked P Q (.done a s) (.done a t)
  | stop {e : Stop} {s t : State} (h : Q (.error e) s t) : Locked P Q (.stop e s) (.stop e t)
  | call {f : Function} {args : List Value} {s t : State} {k l : Reply → State → Step α}
    (pre : P.pre f args s t)
    (resume : ∀ r s' t', P.post f args s t r s' t' → Locked P Q (k r s') (l r t')) :
    Locked P Q (.call f args s k) (.call f args t l)

namespace Step.Locked

variable {Q R : Joint α}

theorem mono {x y : Step α} (h : x.Locked P Q y) (hQR : ∀ r s t, Q r s t → R r s t) :
    x.Locked P R y := by
  induction h with
  | done h => exact .done (hQR _ _ _ h)
  | stop h => exact .stop (hQR _ _ _ h)
  | call pre _ ih => exact .call pre ih

theorem bind {Q' : Joint β} {x y : Step α} {g g' : α → State → Step β} (h : x.Locked P Q y)
    (hok : ∀ a s t, Q (.ok a) s t → (g a s).Locked P Q' (g' a t))
    (herr : ∀ e s t, Q (.error e) s t → Q' (.error e) s t) :
    (x.bind g).Locked P Q' (y.bind g') := by
  induction h with
  | done h => exact hok _ _ _ h
  | stop h => exact .stop (herr _ _ _ h)
  | call pre _ ih => exact .call pre ih

theorem adjust {x y : Step α} {reason : Stop → Stop} {after after' : State → State}
    (h : x.Locked P Q y) (hok : ∀ a s t, Q (.ok a) s t → R (.ok a) (after s) (after' t))
    (herr : ∀ e s t, Q (.error e) s t → R (.error (reason e)) (after s) (after' t)) :
    (x.adjust reason after).Locked P R (y.adjust reason after') := by
  induction h with
  | done h => exact .done (hok _ _ _ h)
  | stop h => exact .stop (herr _ _ _ h)
  | call pre _ ih => exact .call pre ih

theorem ofReply {Q : Joint Value} {r : Reply} {s t : State} (h : Q r s t) :
    (Step.ofReply r s).Locked P Q (Step.ofReply r t) := by
  cases r with
  | ok v => exact .done h
  | error e => exact .stop h

end Step.Locked

/-- The two bodies of every call keep a pact, and giving up is no breach of it. -/
structure Pact.Sound (P : Pact) (fuel : Nat) : Prop where
  body : ∀ f args s t, P.pre f args s t →
    (f.apply fuel args s).Locked P (P.post f args s t) (f.apply fuel args t)
  giveUp : ∀ f args s t s' t', P.post f args s t (.error .outOfFuel) s' t'

/-- What waits in two runs for a call that ends as `R` says leads, through the calls around it, to
an end as `Q` says. -/
inductive Attends (P : Pact) (Q : Joint Value) : Joint Value → List Resumption →
    List Resumption → Prop
  | nil : Attends P Q Q [] []
  | cons {R R' : Joint Value} {k l : Resumption} {ks ls : List Resumption}
      (head : ∀ r s t, R r s t → (k r s).Locked P R' (l r t)) (tail : Attends P Q R' ks ls) :
      Attends P Q R (k :: ks) (l :: ls)

namespace Pact.Sound

variable {fuel : Nat}

theorem runCalls (hP : P.Sound fuel) {n : Nat} {Q R : Joint Value} {ks ls : List Resumption}
    {x y : Step Value} (h : x.Locked P R y) (hs : Attends P Q R ks ls)
    (hQ : ∀ s t, Q (.error .outOfFuel) s t) :
    (Lox.runCalls fuel n ks x).1 = (Lox.runCalls fuel n ls y).1 ∧
      Q (Lox.runCalls fuel n ks x).1 (Lox.runCalls fuel n ks x).2
        (Lox.runCalls fuel n ls y).2 := by
  -- the two runs take the same number of steps, so that they also run out of fuel together
  induction n generalizing R ks ls x y with
  | zero => exact ⟨rfl, hQ _ _⟩
  | succ n ih =>
    cases h with
    | call pre resume => exact ih (hP.body _ _ _ _ pre) (.cons resume hs)
    | done h =>
      cases hs with
      | nil => exact ⟨rfl, h⟩
      | cons head tail => exact ih (head _ _ _ h) tail
    | stop h =>
      cases hs with
      | nil => exact ⟨rfl, h⟩
      | cons head tail => exact ih (head _ _ _ h) tail

/-- Two steps that stay together end with the same result, if the pact is sound. -/
theorem run (hP : P.Sound fuel) {Q : Joint α} {x y : Step α} (h : x.Locked P Q y) :
    (x.run fuel).1 = (y.run fuel).1 ∧ Q (x.run fuel).1 (x.run fuel).2 (y.run fuel).2 := by
  induction h with
  | done h => exact ⟨rfl, h⟩
  | stop h => exact ⟨rfl, h⟩
  | @call f args s t k l pre _ ih =>
    obtain ⟨hr, hpost⟩ := hP.runCalls (n := fuel) (hP.body f args s t pre) .nil
      (hP.giveUp f args s t)
    rw [Step.run_call, Step.run_call, ← hr]
    exact ih _ _ _ hpost

end Pact.Sound

end Lox
