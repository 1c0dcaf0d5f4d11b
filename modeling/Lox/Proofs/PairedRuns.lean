import Lox.Proofs.PairedSteps

/-!
# Corresponding runs

Trees with more braces do what trees with fewer of them do, in states that correspond and with any
fuel.

* `Expr.Braced.corresponds`, `Stmt.Braced.corresponds`, `AllBraced.corresponds`: expressions and
  statements;
* `Function.Corresponds.apply`, `runCalls_corresponds`: calls, and the calls that they ask for;
* `Step.Corresponds.run`: the ends of corresponding steps.
-/

namespace Lox

variable {α β : Type} {w w' : Pairing} {σ τ : Scope}

/-! ### Expressions -/

mutual

/-- Expressions that are the same but for braces have corresponding values. -/
theorem Expr.Braced.corresponds {w : Pairing} {e e' : Expr} : e.Braced e' →
    (eval e).Corresponds w σ τ Value.Corresponds (eval e')
  | .literal (v := v) => by
    rw [eval, eval]
    exact pure_corresponds fun _ _ => .of_plain v.plain_value
  | .group h => by
    rw [eval, eval]
    exact h.corresponds.blaming _ _
  | @Expr.Braced.unary _ _ op _ _ h => by
    rw [eval, eval]
    refine (h.corresponds.bind fun w' v v' _ hv => ?_).blaming _ _
    rw [hv.unary_eq op]
    exact ofExcept_corresponds (op.returns_apply v')
  | @Expr.Braced.binary _ _ op _ _ _ _ hl hr => by
    rw [eval, eval]
    refine (hl.corresponds.bind fun w' v v' _ hv => ?_).blaming _ _
    refine hr.corresponds.bind fun w'' u u' hle hu => ?_
    rw [(hv.mono hle).binary_eq hu op]
    exact ofExcept_corresponds (op.returns_apply v' u')
  | @Expr.Braced.logical _ _ op _ _ _ _ hl hr => by
    rw [eval, eval]
    refine (hl.corresponds.bind fun w' v v' _ hv => ?_).blaming _ _
    rw [hv.decides_eq op]
    split
    · exact pure_corresponds fun _ hle => hv.mono hle
    · exact hr.corresponds
  | .var (x := x) => by
    rw [eval, eval]
    exact (readName_corresponds x).blaming _ _
  | .assign (x := x) h => by
    rw [eval, eval]
    refine (h.corresponds.bind fun w' v v' _ hv => ?_).blaming _ _
    exact (assignName_corresponds x hv).bind fun w'' _ _ hle _ =>
      pure_corresponds fun _ hle' => hv.mono (hle.trans hle')
  | .call hf hargs => by
    rw [eval, eval]
    refine (hf.corresponds.bind fun w' v v' _ hv => ?_).blaming _ _
    exact hargs.corresponds.bind fun w'' vs vs' hle hvs => callValue_corresponds (hv.mono hle) hvs
  | @Expr.Braced.lambda _ _ params _ _ hbody => by
    rw [eval, eval]
    exact newFunction_corresponds none params hbody
  | .get (x := x) h => by
    rw [eval, eval]
    refine (h.corresponds.bind fun w' v v' _ hv => ?_).blaming _ _
    refine (objectId_corresponds hv).bind ?_
    rintro w'' id _ - rfl
    exact readField_corresponds id x
  | .set (x := x) h hv => by
    rw [eval, eval]
    refine (h.corresponds.bind fun w' o o' _ ho => ?_).blaming _ _
    refine (objectId_corresponds ho).bind ?_
    rintro w'' id _ - rfl
    refine hv.corresponds.bind fun w₁ v v' _ hv => ?_
    exact (writeField_corresponds id x hv).bind fun w₂ _ _ hle _ =>
      pure_corresponds fun _ hle' => hv.mono (hle.trans hle')

theorem EachBraced.corresponds {w : Pairing} {es es' : List Expr} : EachBraced es es' →
    (evalAll es).Corresponds w σ τ ValuesCorrespond (evalAll es')
  | .nil => by
    rw [evalAll]
    exact pure_corresponds fun _ _ => .nil
  | .cons h hs => by
    rw [evalAll, evalAll]
    refine h.corresponds.bind fun w' v v' _ hv => ?_
    exact hs.corresponds.bind fun w'' vs vs' hle hvs =>
      pure_corresponds fun _ hle' => .cons (hv.mono (hle.trans hle')) (hvs.mono hle')

end

theorem OptionBraced.corresponds {e e' : Option Expr} (h : OptionBraced e e') :
    (evalOption e).Corresponds w σ τ Value.Corresponds (evalOption e') := by
  cases h with
  | none => exact pure_corresponds fun _ _ => .same trivial
  | some h => exact h.corresponds

/-! ### Statements -/

/-- The same way to end, with a corresponding result. -/
inductive Flow.Corresponds (w : Pairing) : Flow → Flow → Prop
  | next : Corresponds w .next .next
  | leave : Corresponds w .leave .leave
  | result {v v' : Value} (h : v.Corresponds w v') : Corresponds w (.result v) (.result v')

theorem repeatWhile_corresponds {condition condition' : Action Value} {body body' : Action Flow}
    (hc : condition.Corresponds w σ τ Value.Corresponds condition')
    (hb : body.Corresponds w σ τ Flow.Corresponds body') (n : Nat) :
    (repeatWhile condition body n).Corresponds w σ τ Flow.Corresponds
      (repeatWhile condition' body' n) := by
  induction n generalizing w with
  | zero => exact giveUp_corresponds
  | succ n ih =>
    rw [repeatWhile, repeatWhile]
    refine hc.bind fun w' v v' hle hv => ?_
    rw [hv.truthy_eq]
    split
    · refine (hb.mono hle).bind fun w'' flow flow' hle' hflow => ?_
      cases hflow with
      | next => exact ih (hc.mono (hle.trans hle')) (hb.mono (hle.trans hle'))
      | leave => exact pure_corresponds fun _ _ => .next
      | result hv => exact pure_corresponds fun _ hle => .result (hv.mono hle)
    · exact pure_corresponds fun _ _ => .next

/-- A declaration gives its name corresponding values in frames that are paired. -/
theorem declare_corresponds (habreast : Abreast w σ τ) (name : String)
    {make make' : Action Value} (h : make.Corresponds w σ τ Value.Corresponds make') :
    (make >>= fun v => defineName name v >>= fun _ => pure Flow.next).Corresponds w σ τ
      Flow.Corresponds (make' >>= fun v => defineName name v >>= fun _ => pure Flow.next) :=
  h.bind fun _ _ _ hle hv => (defineName_corresponds name hv (habreast.mono hle)).bind
    fun _ _ _ _ _ => pure_corresponds fun _ _ => .next

theorem execAll_singleton (fuel : Nat) (s : Stmt) : execAll fuel [s] = exec fuel s := by
  rw [execAll]
  refine (bind_congr fun flow => ?_).trans (bind_pure (exec fuel s))
  cases flow with
  | next =>
    show execAll fuel [] = pure .next
    rw [execAll]
  | leave => rfl
  | result v => rfl

/-- Braces around one statement are a frame around it. -/
theorem exec_braces (fuel : Nat) (m : Mark) (s : Stmt) :
    exec fuel (.block m [s]) = within .push (exec fuel s) := by
  rw [exec, execAll_singleton]

mutual

/-- Statements that are the same but for braces end alike. They may declare something in frames
that are paired only. -/
theorem Stmt.Braced.corresponds (fuel : Nat) {w : Pairing} {σ τ : Scope} {s s' : Stmt} :
    s.Braced s' → s.sheltered = true ∨ Abreast w σ τ →
      (exec fuel s).Corresponds w σ τ Flow.Corresponds (exec fuel s')
  | .brace hs h, _ => by
    rw [exec_braces]
    -- the frames that the statement now starts in are no pair, but it declares nothing there
    exact .brace fun w' j _ => h.corresponds fuel (.inl hs)
  | .expression h, _ => by
    rw [exec, exec]
    exact h.corresponds.bind fun _ _ _ _ _ => pure_corresponds fun _ _ => .next
  | .print h, _ => by
    rw [exec, exec]
    refine h.corresponds.bind fun w' v v' _ hv => ?_
    rw [hv.display_eq]
    exact (printLine_corresponds _).bind fun _ _ _ _ _ => pure_corresponds fun _ _ => .next
  | .varDecl (x := x) h, hdeclares => by
    rw [exec, exec]
    exact declare_corresponds (hdeclares.resolve_left (by simp [Stmt.sheltered])) x h.corresponds
  | .block h, _ => by
    rw [exec, exec]
    exact .block fun w' i j _ hij => h.corresponds fuel ⟨hij⟩
  | .ifElse hc ht he, hdeclares => by
    rw [exec, exec]
    refine hc.corresponds.bind fun w' v v' hle hv => ?_
    rw [hv.truthy_eq]
    have hshelter := hdeclares.imp_left fun h => (Bool.and_eq_true _ _).mp h
    split
    · exact ht.corresponds fuel (hshelter.imp And.left (·.mono hle))
    · exact he.corresponds fuel (hshelter.imp And.right (·.mono hle))
  | .whileDo hc hb, hdeclares => by
    rw [exec, exec]
    exact repeatWhile_corresponds hc.corresponds (hb.corresponds fuel hdeclares) fuel
  | @Stmt.Braced.funDecl _ _ x params _ _ h, hdeclares => by
    rw [exec, exec]
    exact declare_corresponds (hdeclares.resolve_left (by simp [Stmt.sheltered])) x
      (newFunction_corresponds (some x) params h)
  | .returns h, _ => by
    rw [exec, exec]
    exact h.corresponds.bind fun _ _ _ _ hv => pure_corresponds fun _ hle => .result (hv.mono hle)
  | .breaks h, _ => by
    rw [exec, exec]
    exact h.corresponds.bind fun _ _ _ _ _ => pure_corresponds fun _ _ => .leave
  | .classDecl (x := x), hdeclares => by
    rw [exec, exec]
    exact declare_corresponds (hdeclares.resolve_left (by simp [Stmt.sheltered])) x
      (newClass_corresponds x)

theorem ElseBraced.corresponds (fuel : Nat) {w : Pairing} {σ τ : Scope} {s s' : Option Stmt} :
    ElseBraced s s' → shelteredElse s = true ∨ Abreast w σ τ →
      (execOption fuel s).Corresponds w σ τ Flow.Corresponds (execOption fuel s')
  | .none, _ => by
    rw [execOption]
    exact pure_corresponds fun _ _ => .next
  | .some h, hdeclares => by
    rw [execOption, execOption]
    exact h.corresponds fuel hdeclares

theorem AllBraced.corresponds (fuel : Nat) {w : Pairing} {σ τ : Scope} {ss ss' : List Stmt} :
    AllBraced ss ss' → Abreast w σ τ →
      (execAll fuel ss).Corresponds w σ τ Flow.Corresponds (execAll fuel ss')
  | .nil, _ => by
    rw [execAll]
    exact pure_corresponds fun _ _ => .next
  | .cons h hs, habreast => by
    rw [execAll, execAll]
    refine (h.corresponds fuel (.inr habreast)).bind fun w' flow flow' hle hflow => ?_
    cases hflow with
    | next => exact hs.corresponds fuel (habreast.mono hle)
    | leave => exact pure_corresponds fun _ _ => .leave
    | result hv => exact pure_corresponds fun _ hle => .result (hv.mono hle)

end

theorem AllBraced.runStatements_corresponds (fuel : Nat) {ss ss' : List Stmt}
    (h : AllBraced ss ss') (habreast : Abreast w σ τ) :
    (runStatements fuel ss).Corresponds w σ τ (fun _ _ _ => True) (runStatements fuel ss') := by
  induction ss generalizing w ss' with
  | nil =>
    cases h
    exact pure_corresponds fun _ _ => trivial
  | cons s ss ih =>
    cases h with
    | cons head tail =>
      rw [runStatements, runStatements]
      refine (head.corresponds fuel (.inr habreast)).bind fun w' flow flow' hle hflow => ?_
      cases hflow with
      | next => exact ih tail (habreast.mono hle)
      | leave => exact stopWith_corresponds rfl
      | result => exact stopWith_corresponds rfl

/-! ### Runs -/

/-- Two runs end with corresponding results in the scopes `σ` and `τ`, or neither had enough
fuel. -/
def RunCorresponds (w : Pairing) (σ τ : Scope) (R : Pairing → α → β → Prop)
    (p : Except Stop α × State) (q : Except Stop β × State) : Prop :=
  (p.1 = .error .outOfFuel ∧ q.1 = .error .outOfFuel) ∨
    ∃ w', w <+: w' ∧ ResultLike (R w') p.1 q.1 ∧ p.2.Corresponds w' σ τ q.2

/-- Corresponding functions, called with corresponding arguments, do the same. -/
theorem Function.Corresponds.apply (fuel : Nat) {f g : Function} (hfg : f.Corresponds w g)
    {args args' : List Value} (hargs : ValuesCorrespond w args args') {s t : State}
    (hst : s.Corresponds w σ τ t) :
    Step.Corresponds σ τ Value.Corresponds w (f.apply fuel args s) (g.apply fuel args' t) := by
  have henv := hst.env.enterFunction hfg hargs
  have hgrow : w <+: w ++ [some s.env.frames.size] := List.prefix_append _ _
  have hentered : (f.entered args s).Corresponds _ _ _ (g.entered args' t) :=
    { hst.withEnv hgrow henv with depth := by simp [Function.entered, hst.depth] }
  have hbody := hfg.body.corresponds fuel ⟨hst.env.matching.pairs_new⟩ _ _ _
    (List.prefix_refl _) hentered
  rw [Function.apply_eq, Function.apply_eq]
  -- the bodies run in the new frames, and the scopes from before are put back after them
  refine Step.Corresponds.bind (R := Flow.Corresponds) (Step.Corresponds.weaken ?_ hgrow)
    fun w' flow flow' u v _ hflow huv => ?_
  · refine hbody.adjust Stop.keepsFault_id Stop.keepsFault_id fun w' u v hle huv => ?_
    have hback := huv.withEnv (List.prefix_refl w')
      (huv.env.enter (hst.env.path.mono (hgrow.trans hle)))
    rw [← hst.env.scope, ← hst.env.scope'] at hback ⊢
    exact { hback with depth := by simp [State.returned, huv.depth] }
  · cases hflow with
    | next => exact .done (List.prefix_refl w') (.same trivial) huv
    | leave => exact .error (List.prefix_refl w') rfl huv
    | result hv => exact .done (List.prefix_refl w') hv huv

/-- What waits in two runs for a call that ends in the scopes `σ` and `τ` does the same after
corresponding results, through the calls around it, and ends in the scopes `σ₀` and `τ₀`. -/
inductive WaitingCorresponds (w : Pairing) (σ₀ τ₀ : Scope) :
    Scope → Scope → List Resumption → List Resumption → Prop
  | nil : WaitingCorresponds w σ₀ τ₀ σ₀ τ₀ [] []
  | cons {σ τ σ' τ' : Scope} {k l : Resumption} {ks ls : List Resumption}
      (strict : ∀ s, (k (.error .outOfFuel) s).Exhausted)
      (strict' : ∀ s, (l (.error .outOfFuel) s).Exhausted)
      (head : ∀ w' r r' s t, w <+: w' → ResultLike (Value.Corresponds w') r r' →
        s.Corresponds w' σ τ t → Step.Corresponds σ' τ' Value.Corresponds w' (k r s) (l r' t))
      (tail : WaitingCorresponds w σ₀ τ₀ σ' τ' ks ls) :
      WaitingCorresponds w σ₀ τ₀ σ τ (k :: ks) (l :: ls)

namespace WaitingCorresponds

variable {σ₀ τ₀ : Scope} {ks ls : List Resumption}

theorem mono (h : WaitingCorresponds w σ₀ τ₀ σ τ ks ls) (hle : w <+: w') :
    WaitingCorresponds w' σ₀ τ₀ σ τ ks ls := by
  induction h with
  | nil => exact .nil
  | cons strict strict' head _ ih =>
    exact .cons strict strict' (fun w'' r r' s t hle' => head w'' r r' s t (hle.trans hle')) ih

theorem strict (h : WaitingCorresponds w σ₀ τ₀ σ τ ks ls) :
    (∀ k ∈ ks, ∀ s, (k (.error .outOfFuel) s).Exhausted) ∧
      ∀ l ∈ ls, ∀ s, (l (.error .outOfFuel) s).Exhausted := by
  induction h with
  | nil => simp
  | cons strict strict' _ _ ih =>
    exact ⟨List.forall_mem_cons.2 ⟨strict, ih.1⟩, List.forall_mem_cons.2 ⟨strict', ih.2⟩⟩

end WaitingCorresponds

theorem RunCorresponds.weaken {R : Pairing → α → β → Prop} {p : Except Stop α × State}
    {q : Except Stop β × State} (h : RunCorresponds w' σ τ R p q) (hle : w <+: w') :
    RunCorresponds w σ τ R p q :=
  h.imp_right fun ⟨w'', hle', h⟩ => ⟨w'', hle.trans hle', h⟩

theorem runCalls_corresponds (fuel : Nat) {n : Nat} {σ₀ τ₀ : Scope} {ks ls : List Resumption}
    {x y : Step Value} (hxy : Step.Corresponds σ τ Value.Corresponds w x y)
    (hstack : WaitingCorresponds w σ₀ τ₀ σ τ ks ls) :
    RunCorresponds w σ₀ τ₀ Value.Corresponds (runCalls fuel n ks x) (runCalls fuel n ls y) := by
  -- the two runs make the same calls and returns, so that they run out of fuel together
  induction n generalizing w σ τ ks ls x y with
  | zero => exact .inl ⟨rfl, rfl⟩
  | succ n ih =>
    cases hxy with
    | done grows result states =>
      cases hstack with
      | nil => exact .inr ⟨_, grows, .ok result, states⟩
      | cons _ _ head tail =>
        exact (ih (head _ _ _ _ _ grows (.ok result) states) (tail.mono grows)).weaken grows
    | error grows fault states =>
      cases hstack with
      | nil => exact .inr ⟨_, grows, .error fault, states⟩
      | cons _ _ head tail =>
        exact (ih (head _ _ _ _ _ grows (.error fault) states) (tail.mono grows)).weaken grows
    | exhausted left right =>
      exact .inl ⟨runCalls_exhausted left hstack.strict.1, runCalls_exhausted right hstack.strict.2⟩
    | call grows function arguments states strict strict' resume =>
      exact (ih (function.apply fuel arguments states)
        (.cons strict strict' resume (hstack.mono grows))).weaken grows

/-- Corresponding steps have corresponding ends. -/
theorem Step.Corresponds.run (fuel : Nat) {R : Pairing → α → β → Prop} {x : Step α} {y : Step β}
    (hxy : Step.Corresponds σ τ R w x y) : RunCorresponds w σ τ R (x.run fuel) (y.run fuel) := by
  induction hxy with
  | done grows result states => exact .inr ⟨_, grows, .ok result, states⟩
  | error grows fault states => exact .inr ⟨_, grows, .error fault, states⟩
  | exhausted left right => exact .inl ⟨left.run fuel, right.run fuel⟩
  | call grows function arguments states strict strict' _ ih =>
    rw [Step.run_call, Step.run_call]
    rcases runCalls_corresponds fuel (n := fuel) (function.apply fuel arguments states) .nil with
      ⟨hfuel, hfuel'⟩ | ⟨w'', hle, hresult, hstates⟩
    · rw [hfuel, hfuel']
      exact .inl ⟨(strict _).run fuel, (strict' _).run fuel⟩
    · exact (ih _ _ _ _ _ hle hresult hstates).weaken (grows.trans hle)

end Lox
