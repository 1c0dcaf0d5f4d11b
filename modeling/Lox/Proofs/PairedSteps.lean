import Lox.Proofs.Likeness
import Lox.Proofs.Pairing

/-!
# Corresponding steps

Two steps correspond if they do the same in states that correspond, while the pairing of their
frames grows: they end with corresponding results, or stop with the same fault, or ask for calls of
corresponding functions and go on in the same way, or neither has any fuel left.

* `Step.Corresponds`, with its rules for `bind` and `adjust`;
* `Action.Corresponds`, with a rule for each way to build actions;
* `Action.Corresponds.block`, `Action.Corresponds.brace`: braces on both sides, and on one side.
-/

namespace Lox

variable {α β γ δ : Type} {w w' : Pairing} {σ τ σ' τ' : Scope}

/-! ### Steps -/

/-- Two steps that do the same where the frames are paired as `w` says, or more of them are. They
end in the scopes `σ` and `τ`, with results as `R` says, and calls put back the scopes from which
they are asked for. -/
inductive Step.Corresponds (σ τ : Scope) (R : Pairing → α → β → Prop) :
    Pairing → Step α → Step β → Prop
  | done {w w' : Pairing} {a : α} {b : β} {s t : State} (grows : w <+: w') (result : R w' a b)
      (states : s.Corresponds w' σ τ t) : Corresponds σ τ R w (.done a s) (.done b t)
  | error {w w' : Pairing} {e e' : RuntimeError} {s t : State} (grows : w <+: w')
      (fault : e.fault = e'.fault) (states : s.Corresponds w' σ τ t) :
      Corresponds σ τ R w (.stop (.error e) s) (.stop (.error e') t)
  | exhausted {w : Pairing} {x : Step α} {y : Step β} (left : x.Exhausted)
      (right : y.Exhausted) : Corresponds σ τ R w x y
  | call {w w' : Pairing} {σ' τ' : Scope} {f g : Function} {args args' : List Value}
      {s t : State} {k : Reply → State → Step α} {l : Reply → State → Step β} (grows : w <+: w')
      (function : f.Corresponds w' g) (arguments : ValuesCorrespond w' args args')
      (states : s.Corresponds w' σ' τ' t) (strict : ∀ s, (k (.error .outOfFuel) s).Exhausted)
      (strict' : ∀ s, (l (.error .outOfFuel) s).Exhausted)
      (resume : ∀ w'' r r' s t, w' <+: w'' → ResultLike (Value.Corresponds w'') r r' →
        s.Corresponds w'' σ' τ' t → Corresponds σ τ R w'' (k r s) (l r' t)) :
      Corresponds σ τ R w (.call f args s k) (.call g args' t l)

/-- What may be done to a reason to stop: a fault stays that fault, and no fuel is no fuel. -/
structure Stop.KeepsFault (reason : Stop → Stop) : Prop where
  fuel : reason .outOfFuel = .outOfFuel
  fault : ∀ e, ∃ d : RuntimeError, reason (.error e) = .error d ∧ d.fault = e.fault

theorem Stop.keepsFault_id : KeepsFault id := ⟨rfl, fun e => ⟨e, rfl, rfl⟩⟩

theorem Stop.keepsFault_blame (span : Span) : KeepsFault (·.blame span) :=
  ⟨rfl, fun e => ⟨e.blame span, rfl, rfl⟩⟩

theorem Step.adjust_id (x : Step α) : x.adjust id id = x := by
  induction x with
  | done => rfl
  | stop => rfl
  | call f args s k ih => simp [Step.adjust, ih]

namespace Step.Corresponds

variable {R : Pairing → α → β → Prop} {Q : Pairing → γ → δ → Prop} {x : Step α} {y : Step β}

/-- What holds from a larger pairing on, holds from a smaller one on. -/
theorem weaken (h : Step.Corresponds σ τ R w' x y) (hle : w <+: w') :
    Step.Corresponds σ τ R w x y := by
  cases h with
  | done grows result states => exact .done (hle.trans grows) result states
  | error grows fault states => exact .error (hle.trans grows) fault states
  | exhausted left right => exact .exhausted left right
  | call grows function arguments states strict strict' resume =>
    exact .call (hle.trans grows) function arguments states strict strict' resume

theorem bind {g : α → State → Step γ} {h : β → State → Step δ}
    (hxy : Step.Corresponds σ τ R w x y)
    (hgh : ∀ w' a b s t, w <+: w' → R w' a b → s.Corresponds w' σ τ t →
      Step.Corresponds σ τ Q w' (g a s) (h b t)) :
    Step.Corresponds σ τ Q w (x.bind g) (y.bind h) := by
  induction hxy with
  | done grows result states => exact (hgh _ _ _ _ _ grows result states).weaken grows
  | error grows fault states => exact .error grows fault states
  | exhausted left right => exact .exhausted (left.bind g) (right.bind h)
  | call grows function arguments states strict strict' _ ih =>
    exact .call grows function arguments states (fun s => (strict s).bind g)
      (fun s => (strict' s).bind h) fun w'' r r' s t hle hr hst =>
        ih w'' r r' s t hle hr hst fun w₃ a b s t hle₃ => hgh w₃ a b s t
          (grows.trans (hle.trans hle₃))

/-- What is put back after steps may lead to other scopes. -/
theorem adjust {reason reason' : Stop → Stop} {after after' : State → State}
    (hxy : Step.Corresponds σ τ R w x y) (hreason : Stop.KeepsFault reason)
    (hreason' : Stop.KeepsFault reason')
    (hafter : ∀ w' s t, w <+: w' → s.Corresponds w' σ τ t →
      (after s).Corresponds w' σ' τ' (after' t)) :
    Step.Corresponds σ' τ' R w (x.adjust reason after) (y.adjust reason' after') := by
  induction hxy with
  | done grows result states => exact .done grows result (hafter _ _ _ grows states)
  | @error _ _ e e' _ _ grows fault states =>
    obtain ⟨d, hd, hfault⟩ := hreason.fault e
    obtain ⟨d', hd', hfault'⟩ := hreason'.fault e'
    rw [Step.adjust, Step.adjust, hd, hd']
    exact .error grows (hfault.trans (fault.trans hfault'.symm)) (hafter _ _ _ grows states)
  | exhausted left right =>
    exact .exhausted (left.adjust hreason.fuel after) (right.adjust hreason'.fuel after')
  | call grows function arguments states strict strict' _ ih =>
    exact .call grows function arguments states (fun s => (strict s).adjust hreason.fuel after)
      (fun s => (strict' s).adjust hreason'.fuel after') fun w'' r r' s t hle hr hst =>
        ih w'' r r' s t hle hr hst fun w₃ s t hle₃ => hafter w₃ s t (grows.trans (hle.trans hle₃))

end Step.Corresponds

/-! ### Actions -/

/-- Two actions that do the same wherever the frames are paired as `w` says, and more of them may
be. -/
def Action.Corresponds (w : Pairing) (σ τ : Scope) (R : Pairing → α → β → Prop) (x : Action α)
    (y : Action β) : Prop :=
  ∀ w' s t, w <+: w' → s.Corresponds w' σ τ t → Step.Corresponds σ τ R w' (x s) (y t)

section Rules

variable {R : Pairing → α → β → Prop} {Q : Pairing → γ → δ → Prop}

theorem pure_corresponds {a : α} {b : β} (h : ∀ w', w <+: w' → R w' a b) :
    (pure a : Action α).Corresponds w σ τ R (pure b : Action β) :=
  fun w' _ _ hle hst => .done (List.prefix_refl w') (h w' hle) hst

theorem stopWith_corresponds {e e' : RuntimeError} (h : e.fault = e'.fault) :
    (stopWith (.error e) : Action α).Corresponds w σ τ R (stopWith (.error e') : Action β) :=
  fun w' _ _ _ hst => .error (List.prefix_refl w') h hst

theorem fail_corresponds (fault : Fault) :
    (fail fault : Action α).Corresponds w σ τ R (fail fault : Action β) :=
  stopWith_corresponds rfl

theorem giveUp_corresponds : (stopWith .outOfFuel : Action α).Corresponds w σ τ R
    (stopWith .outOfFuel : Action β) :=
  fun _ _ _ _ _ => .exhausted trivial trivial

namespace Action.Corresponds

variable {x : Action α} {y : Action β}

theorem mono (h : x.Corresponds w σ τ R y) (hle : w <+: w') : x.Corresponds w' σ τ R y :=
  fun w'' s t hle' hst => h w'' s t (hle.trans hle') hst

theorem bind {g : α → Action γ} {h : β → Action δ} (hxy : x.Corresponds w σ τ R y)
    (hgh : ∀ w' a b, w <+: w' → R w' a b → (g a).Corresponds w' σ τ Q (h b)) :
    (x >>= g).Corresponds w σ τ Q (y >>= h) := by
  intro w' s t hle hst
  rw [bind_apply, bind_apply]
  exact (hxy w' s t hle hst).bind fun w'' a b s t hle' hab hst =>
    hgh w'' a b (hle.trans hle') hab w'' s t (List.prefix_refl w'') hst

theorem blaming (h : x.Corresponds w σ τ R y) (span span' : Span) :
    (blaming span x).Corresponds w σ τ R (blaming span' y) := by
  intro w' s t hle hst
  exact (h w' s t hle hst).adjust (Stop.keepsFault_blame span) (Stop.keepsFault_blame span')
    fun _ _ _ _ hst => hst

/-- Braces on both sides make frames that are paired. -/
theorem block
    (h : ∀ w' i j, w <+: w' → Pairs w' i j → x.Corresponds w' (i :: σ) (j :: τ) R y) :
    (within .push x).Corresponds w σ τ R (within .push y) := by
  intro w' s t hle hst
  have henv := hst.env.pushOn hst.env.path
  have hgrow : w' <+: w' ++ [some s.env.frames.size] := List.prefix_append _ _
  have hbody := h _ _ _ (hle.trans hgrow) hst.env.matching.pairs_new _ _ _ (List.prefix_refl _)
    (hst.withEnv hgrow henv)
  rw [← hst.env.scope, ← hst.env.scope'] at hbody
  refine Step.Corresponds.weaken ?_ hgrow
  refine hbody.adjust Stop.keepsFault_id Stop.keepsFault_id fun w'' u v hle'' huv => ?_
  refine huv.withEnv (List.prefix_refl w'') ?_
  rw [hst.env.scope, hst.env.scope']
  exact huv.env.enter (hst.env.path.mono (hgrow.trans hle''))

/-- Braces on the second side make a spare frame. -/
theorem brace (h : ∀ w' j, w <+: w' → x.Corresponds w' σ (j :: τ) R y) :
    x.Corresponds w σ τ R (within .push y) := by
  intro w' s t hle hst
  have hgrow : w' <+: w' ++ [none] := List.prefix_append _ _
  have hbody := h _ _ (hle.trans hgrow) _ _ _ (List.prefix_refl _)
    (hst.withEnv hgrow hst.env.pushSpare)
  refine Step.Corresponds.weaken ?_ hgrow
  -- only the second side has a scope to go back to
  rw [← Step.adjust_id (x s)]
  refine hbody.adjust Stop.keepsFault_id Stop.keepsFault_id fun w'' u v hle'' huv => ?_
  refine huv.withEnv (List.prefix_refl w'') ?_
  rw [hst.env.scope']
  have hback := huv.env.enter (hst.env.path.mono (hgrow.trans hle''))
  have hsame : u.env.enter σ = u.env := by
    rw [← huv.env.scope]
    rfl
  rwa [hsame] at hback

end Action.Corresponds

/-! ### Names, objects and calls -/

theorem ofExcept_corresponds {F : Fault → Prop} {r : Except Fault Value} (h : Returns F r) :
    (ofExcept r).Corresponds w σ τ Value.Corresponds (ofExcept r) := by
  cases r with
  | ok v => exact pure_corresponds fun _ _ => .of_plain h.1
  | error fault => exact fail_corresponds fault

theorem readName_corresponds (name : String) :
    (readName name).Corresponds w σ τ Value.Corresponds (readName name) := by
  intro w' s t hle hst
  unfold readName
  rcases optionRel_cases (hst.env.lookup name) with ⟨hs, ht⟩ | ⟨v, v', hs, ht, hv⟩ <;> rw [hs, ht]
  · exact fail_corresponds _ w' s t hle hst
  · exact .done (List.prefix_refl w') hv hst

theorem defineName_corresponds (name : String) {v v' : Value} (hv : v.Corresponds w v')
    (habreast : Abreast w σ τ) :
    (defineName name v).Corresponds w σ τ (fun _ _ _ => True) (defineName name v') :=
  fun w' _ _ hle hst => .done (List.prefix_refl w') trivial
    (hst.withEnv (List.prefix_refl w') (hst.env.define (habreast.mono hle) name (hv.mono hle)))

theorem assignName_corresponds (name : String) {v v' : Value} (hv : v.Corresponds w v') :
    (assignName name v).Corresponds w σ τ (fun _ _ _ => True) (assignName name v') := by
  intro w' s t hle hst
  unfold assignName
  rcases optionRel_cases (hst.env.owner? name) with ⟨hs, ht⟩ | ⟨i, j, hs, ht, hij⟩ <;> rw [hs, ht]
  · exact fail_corresponds _ w' s t hle hst
  · exact .done (List.prefix_refl w') trivial
      (hst.withEnv (List.prefix_refl w') (hst.env.write hij name (hv.mono hle)))

theorem printLine_corresponds (text : String) :
    (printLine text).Corresponds w σ τ (fun _ _ _ => True) (printLine text) :=
  fun w' _ _ _ hst => .done (List.prefix_refl w') trivial
    { hst with output := by simp [hst.output] }

theorem newId_corresponds : newId.Corresponds w σ τ (fun _ => Eq) newId :=
  fun w' _ _ _ hst => .done (List.prefix_refl w') hst.nextId
    { hst with nextId := by simp [hst.nextId] }

theorem newFunction_corresponds (name : Option String) (params : List String)
    {body body' : List Stmt} (h : AllBraced body body') :
    (newFunction name params body).Corresponds w σ τ Value.Corresponds
      (newFunction name params body') := by
  refine newId_corresponds.bind ?_
  rintro w' id _ - rfl w'' s t - hst
  have hpath : Along w'' s.env.scope t.env.scope := by
    rw [hst.env.scope, hst.env.scope']
    exact hst.env.path
  exact .done (List.prefix_refl w'') (.function ⟨rfl, rfl, h, hpath⟩) hst

theorem newClass_corresponds (name : String) :
    (newClass name).Corresponds w σ τ Value.Corresponds (newClass name) := by
  refine newId_corresponds.bind ?_
  rintro w' id _ - rfl
  exact pure_corresponds fun _ _ => .same trivial

theorem newObject_corresponds (className : String) :
    (newObject className).Corresponds w σ τ Value.Corresponds (newObject className) := by
  intro w' s t hle hst
  refine .done (List.prefix_refl w') ?_ hst.newObject
  rw [hst.objectCount]
  exact .same trivial

theorem objectId_corresponds {v v' : Value} (h : v.Corresponds w v') :
    (objectId v).Corresponds w σ τ (fun _ => Eq) (objectId v') := by
  cases h with
  | same =>
    cases v with
    | object id name => exact pure_corresponds fun _ _ => rfl
    | _ => exact fail_corresponds _
  | function => exact fail_corresponds _

theorem readField_corresponds (id : Nat) (name : String) :
    (readField id name).Corresponds w σ τ Value.Corresponds (readField id name) := by
  intro w' s t hle hst
  unfold readField
  rcases optionRel_cases (hst.objects id name) with ⟨hs, ht⟩ | ⟨v, v', hs, ht, hv⟩ <;> rw [hs, ht]
  · exact fail_corresponds _ w' s t hle hst
  · exact .done (List.prefix_refl w') hv hst

theorem writeField_corresponds (id : Nat) (name : String) {v v' : Value}
    (hv : v.Corresponds w v') :
    (writeField id name v).Corresponds w σ τ (fun _ _ _ => True) (writeField id name v') :=
  fun w' _ _ hle hst =>
    .done (List.prefix_refl w') trivial (hst.writeField id name (hv.mono hle))

theorem requestCall_corresponds {f g : Function} {args args' : List Value}
    (hfg : f.Corresponds w g) (hargs : ValuesCorrespond w args args') :
    (requestCall f args).Corresponds w σ τ Value.Corresponds (requestCall g args') := by
  intro w' s t hle hst
  unfold requestCall
  rw [hst.depth]
  split
  · exact fail_corresponds _ w' s t hle hst
  · refine .call (List.prefix_refl w') (hfg.mono hle) (hargs.mono hle) hst (fun _ => trivial)
      (fun _ => trivial) fun w'' r r' s t _ hr hst => ?_
    cases hr with
    | ok hv => exact .done (List.prefix_refl w'') hv hst
    | error h => exact .error (List.prefix_refl w'') h hst

theorem callNative_corresponds (f : Native) {args args' : List Value}
    (hargs : ValuesCorrespond w args args') :
    (callNative f args).Corresponds w σ τ Value.Corresponds (callNative f args') := by
  intro w' s t hle hst
  unfold callNative
  rw [Builtin.apply_eq hargs, hst.clock]
  exact ofExcept_corresponds (f.builtin.returns_apply t.clock.reading args') w' _ _ hle
    { hst with clock := rfl }

theorem callValue_corresponds {v v' : Value} {args args' : List Value} (hv : v.Corresponds w v')
    (hargs : ValuesCorrespond w args args') :
    (callValue v args).Corresponds w σ τ Value.Corresponds (callValue v' args') := by
  unfold callValue
  rw [hv.arity?_eq, hv.type_eq, hargs.length_eq]
  split
  · exact fail_corresponds _
  · split
    · exact fail_corresponds _
    · cases hv with
      | same hv =>
        cases v with
        | function => exact False.elim hv
        | native id f => exact callNative_corresponds f hargs
        | cls id name => exact newObject_corresponds name
        | _ => exact fail_corresponds _
      | function hfg => exact requestCall_corresponds hfg hargs

end Rules

end Lox
