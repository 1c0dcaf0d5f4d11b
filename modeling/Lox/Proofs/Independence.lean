import Lox.Proofs.Likeness

/-!
# Marks do not matter

Trees that are the same but for marks do the same in states that are alike, with any fuel that
suffices. In particular the program of which they are a part does not matter.

* `Action.Like`: actions that do the same in alike states, with a rule for each way to build
  actions;
* `eval_like`, `exec_like`: expressions and statements;
* `runStatements_like`, `callsLike`, and from them `Halts.exists_like` and `Halts.like`: the ends
  of alike programs.
-/

namespace Lox

variable {α β γ δ : Type} {base base' : String}

/-! ### Likeness of actions -/

/-- In alike states, the second of two actions does what the first one does. -/
def Action.Like (base base' : String) (R : α → β → Prop) (x : Action α) (y : Action β) : Prop :=
  ∀ s t, s.Alike base base' t → (x s).Like base base' R (y t)

/-- Lists of values that are the same but for marks. -/
def ValuesLike (vs ws : List Value) : Prop := vs.map Value.unmarked = ws.map Value.unmarked

/-- A value that differs from a like one is a function. -/
theorem ValueLike.eq_or_function {v w : Value} (h : ValueLike v w) :
    v = w ∨ ∃ id f g, v = .function id f ∧ w = .function id g ∧ f.unmarked = g.unmarked := by
  unfold ValueLike at h
  cases v with
  | function id f =>
    cases w with
    | function id' g =>
      obtain ⟨rfl, hfg⟩ := Value.function.inj h
      exact .inr ⟨id, f, g, rfl, rfl, hfg⟩
    | _ => cases h
  | _ =>
    cases w with
    | function id' g => cases h
    | _ => exact .inl h

section Rules

variable {R : α → β → Prop} {Q : γ → δ → Prop}

theorem pure_like {a : α} {b : β} (h : R a b) :
    (pure a : Action α).Like base base' R (pure b : Action β) :=
  fun _ _ hs => .done h hs

theorem stopWith_like {e e' : RuntimeError} (h : e.fault = e'.fault) :
    (stopWith (.error e) : Action α).Like base base' R (stopWith (.error e') : Action β) :=
  fun _ _ hs => .error h hs

theorem fail_like (fault : Fault) :
    (fail fault : Action α).Like base base' R (fail fault : Action β) :=
  stopWith_like rfl

theorem ofExcept_like (r : Except Fault Value) :
    (ofExcept r).Like base base' ValueLike (ofExcept r) := by
  cases r with
  | ok v => exact pure_like rfl
  | error fault => exact fail_like fault

namespace Action.Like

theorem bind {x : Action α} {y : Action β} {g : α → Action γ} {h : β → Action δ}
    (hxy : x.Like base base' R y) (hgh : ∀ a b, R a b → (g a).Like base base' Q (h b)) :
    (x >>= g).Like base base' Q (y >>= h) := by
  intro s t hs
  rw [bind_apply, bind_apply]
  exact (hxy s t hs).bind fun a b s t hab hst => hgh a b hab s t hst

theorem blaming {x : Action α} {y : Action β} (h : x.Like base base' R y) (span span' : Span) :
    (blaming span x).Like base base' R (blaming span' y) := by
  intro s t hs
  exact (h s t hs).adjust rfl (fun e e' he => ⟨e.blame span, e'.blame span', rfl, rfl, he⟩)
    fun _ _ hst => hst

theorem keep_error (e e' : RuntimeError) (he : e.fault = e'.fault) : ∃ d d' : RuntimeError,
    id (Stop.error e) = .error d ∧ id (Stop.error e') = .error d' ∧ d.fault = d'.fault :=
  ⟨e, e', rfl, rfl, he⟩

theorem within {x : Action α} {y : Action β} (h : x.Like base base' R y)
    {enter enter' : Environment → Environment}
    (henter : ∀ e e' : Environment, e.unmarked = e'.unmarked →
      (enter e).unmarked = (enter' e').unmarked) :
    (within enter x).Like base base' R (within enter' y) := by
  intro s t hs
  refine (h _ _ (hs.withEnv (henter _ _ hs.env))).adjust rfl keep_error fun u u' hu => ?_
  refine hu.withEnv ?_
  rw [hs.scope]
  exact congrArg (·.enter t.env.scope) hu.env

theorem counted {x : Action α} {y : Action β} (h : x.Like base base' R y) :
    (counted x).Like base base' R (counted y) := by
  intro s t hs
  refine (h _ _ (hs.withDepth (by rw [hs.depth]))).adjust rfl keep_error fun u u' hu => ?_
  exact hu.withDepth (by rw [hu.depth])

theorem inProgram {x : Action α} {y : Action β} (h : x.Like base base' R y) (p p' : Program) :
    (inProgram p x).Like base base' R (inProgram p' y) := by
  intro s t hs
  exact (h _ _ (hs.withProgram p p')).adjust rfl keep_error fun u u' hu => hu.withProgram _ _

end Action.Like

end Rules

/-! ### Names, objects and calls -/

theorem readName_like (name : String) :
    (readName name).Like base base' ValueLike (readName name) := by
  intro s t hs
  have hlookup :
      (s.env.lookup name).map Value.unmarked = (t.env.lookup name).map Value.unmarked := by
    rw [← Environment.lookup_unmarked, ← Environment.lookup_unmarked, hs.env]
  unfold readName
  cases hv : s.env.lookup name with
  | none =>
    rw [hv] at hlookup
    rw [Option.map_eq_none_iff.1 hlookup.symm]
    exact fail_like _ s t hs
  | some v =>
    rw [hv] at hlookup
    obtain ⟨w, hw, hvw⟩ := Option.map_eq_some_iff.1 hlookup.symm
    rw [hw]
    exact .done hvw.symm hs

theorem defineName_like (name : String) {v w : Value} (h : ValueLike v w) :
    (defineName name v).Like base base' (fun _ _ => True) (defineName name w) := by
  intro s t hs
  refine .done trivial (hs.withEnv ?_)
  rw [Environment.unmarked_define, Environment.unmarked_define, hs.env, h]

theorem assignName_like (name : String) {v w : Value} (h : ValueLike v w) :
    (assignName name v).Like base base' (fun _ _ => True) (assignName name w) := by
  intro s t hs
  have howner : s.env.owner? s.env.scope name = t.env.owner? t.env.scope name := by
    rw [← s.env.owner?_unmarked, hs.env, hs.scope, Environment.owner?_unmarked]
  unfold assignName
  rw [howner]
  split
  · refine .done trivial (hs.withEnv ?_)
    rw [Environment.unmarked_write, Environment.unmarked_write, hs.env, h]
  · exact fail_like _ s t hs

theorem printLine_like (text : String) :
    (printLine text).Like base base' (fun _ _ => True) (printLine text) := by
  intro s t hs
  have := hs.print (text ++ "\n")
  rw [← String.append_assoc, ← String.append_assoc] at this
  exact .done trivial this

theorem newId_like : newId.Like base base' Eq newId := by
  intro s t hs
  exact .done hs.nextId (hs.withNextId (by rw [hs.nextId]))

theorem newFunction_like (name : Option String) (params : List String) {body body' : List Stmt}
    (h : unmarkedAll body = unmarkedAll body') :
    (newFunction name params body).Like base base' ValueLike (newFunction name params body') := by
  refine newId_like.bind ?_
  rintro id _ rfl s t hs
  refine .done ?_ hs
  simp only [ValueLike, Value.unmarked, Function.unmarked, h, hs.scope]

theorem newClass_like (name : String) :
    (newClass name).Like base base' ValueLike (newClass name) := by
  refine newId_like.bind ?_
  rintro id _ rfl
  exact pure_like rfl

theorem newObject_like (className : String) :
    (newObject className).Like base base' ValueLike (newObject className) := by
  intro s t hs
  have hsize : s.objects.size = t.objects.size := by
    rw [← size_unmarkedBindings, hs.objects, size_unmarkedBindings]
  refine .done (by rw [hsize]; rfl) (hs.withObjects ?_)
  rw [unmarkedBindings_push, unmarkedBindings_push, hs.objects]

theorem objectId_like {v w : Value} (h : ValueLike v w) :
    (objectId v).Like base base' Eq (objectId w) := by
  rcases h.eq_or_function with rfl | ⟨id, f, g, rfl, rfl, -⟩
  · cases v with
    | object id name => exact pure_like rfl
    | _ => exact fail_like _
  · exact fail_like _

theorem readField_like (id : Nat) (name : String) :
    (readField id name).Like base base' ValueLike (readField id name) := by
  intro s t hs
  have hfield : ((s.objects.getD id ∅).get? name).map Value.unmarked =
      ((t.objects.getD id ∅).get? name).map Value.unmarked := by
    rw [← Bindings.get?_map, ← Bindings.get?_map, ← unmarkedBindings_getD,
      ← unmarkedBindings_getD, hs.objects]
  unfold readField
  cases hv : (s.objects.getD id ∅).get? name with
  | none =>
    rw [hv] at hfield
    rw [Option.map_eq_none_iff.1 hfield.symm]
    exact fail_like _ s t hs
  | some v =>
    rw [hv] at hfield
    obtain ⟨w, hw, hvw⟩ := Option.map_eq_some_iff.1 hfield.symm
    rw [hw]
    exact .done hvw.symm hs

theorem writeField_like (id : Nat) (name : String) {v w : Value} (h : ValueLike v w) :
    (writeField id name v).Like base base' (fun _ _ => True) (writeField id name w) := by
  intro s t hs
  refine .done trivial (hs.withObjects ?_)
  rw [unmarkedBindings_insert, unmarkedBindings_insert, hs.objects, h]

theorem requestCall_like {f g : Function} {args args' : List Value}
    (hfg : f.unmarked = g.unmarked) (hargs : ValuesLike args args') :
    (requestCall f args).Like base base' ValueLike (requestCall g args') := by
  intro s t hs
  unfold requestCall
  rw [hs.depth]
  split
  · exact fail_like _ s t hs
  · refine .call hfg hargs hs (fun _ => trivial) fun r r' s t hr hst => ?_
    cases hr with
    | ok h => exact .done h hst
    | error h => exact .error h hst

theorem Builtin.apply_unmarked (builtin : Builtin) (now : Float) (args : List Value) :
    builtin.apply now (args.map Value.unmarked) = builtin.apply now args := by
  cases builtin with
  | sqrt =>
    rcases args with _ | ⟨x, _ | ⟨y, args⟩⟩
    · rfl
    · simp only [List.map_cons, List.map_nil, Builtin.apply, Value.number?_unmarked,
        Value.type_unmarked]
    · simp [Builtin.apply]
  | _ => rfl

theorem callNative_like (f : Native) {args args' : List Value} (hargs : ValuesLike args args') :
    (callNative f args).Like base base' ValueLike (callNative f args') := by
  intro s t hs
  unfold callNative
  rw [← Builtin.apply_unmarked, hargs, Builtin.apply_unmarked, hs.clock]
  exact ofExcept_like _ _ _ (hs.withClock _)

theorem callValue_like {v w : Value} {args args' : List Value} (h : ValueLike v w)
    (hargs : ValuesLike args args') :
    (callValue v args).Like base base' ValueLike (callValue w args') := by
  have hlength : args.length = args'.length := by
    simpa using congrArg List.length hargs
  have harity : v.arity? = w.arity? := by
    rw [← Value.arity?_unmarked, h, Value.arity?_unmarked]
  have htype : v.type = w.type := by rw [← Value.type_unmarked, h, Value.type_unmarked]
  unfold callValue
  rw [harity, hlength, htype]
  split
  · exact fail_like _
  · split
    · exact fail_like _
    · rcases h.eq_or_function with rfl | ⟨id, f, g, rfl, rfl, hfg⟩
      · cases v with
        | function id f => exact requestCall_like rfl hargs
        | native id f => exact callNative_like f hargs
        | cls id name => exact newObject_like name
        | _ => exact fail_like _
      · exact requestCall_like hfg hargs

/-! ### Expressions -/

mutual

/-- Expressions that are the same but for marks have like values. -/
theorem eval_like : ∀ e e' : Expr, e.unmarked = e'.unmarked →
    (eval e).Like base base' ValueLike (eval e')
  | .literal m v, e', h => by
    cases e' with
    | literal m' v' =>
      cases h
      exact pure_like rfl
    | _ => cases h
  | .group m e, e', h => by
    cases e' with
    | group m' d =>
      exact (eval_like e d (Expr.group.inj h).2).blaming _ _
    | _ => cases h
  | .unary m op e, e', h => by
    cases e' with
    | unary m' op' d =>
      obtain ⟨-, rfl, he⟩ := Expr.unary.inj h
      refine ((eval_like e d he).bind fun v w hvw => ?_).blaming _ _
      rw [← UnaryOp.apply_unmarked, hvw, UnaryOp.apply_unmarked]
      exact ofExcept_like _
    | _ => cases h
  | .binary m l op r, e', h => by
    cases e' with
    | binary m' l' op' r' =>
      obtain ⟨-, hl, rfl, hr⟩ := Expr.binary.inj h
      refine ((eval_like l l' hl).bind fun v w hvw => ?_).blaming _ _
      refine (eval_like r r' hr).bind fun v' w' hvw' => ?_
      rw [← BinaryOp.apply_unmarked, hvw, hvw', BinaryOp.apply_unmarked]
      exact ofExcept_like _
    | _ => cases h
  | .logical m l op r, e', h => by
    cases e' with
    | logical m' l' op' r' =>
      obtain ⟨-, hl, rfl, hr⟩ := Expr.logical.inj h
      refine ((eval_like l l' hl).bind fun v w hvw => ?_).blaming _ _
      have hdecides : op.decides v = op.decides w := by
        unfold LogicalOp.decides
        rw [← Value.truthy_unmarked, hvw, Value.truthy_unmarked]
      rw [hdecides]
      split
      · exact pure_like hvw
      · exact eval_like r r' hr
    | _ => cases h
  | .var m x, e', h => by
    cases e' with
    | var m' x' =>
      obtain ⟨-, rfl⟩ := Expr.var.inj h
      exact (readName_like x).blaming _ _
    | _ => cases h
  | .assign m x e, e', h => by
    cases e' with
    | assign m' x' d =>
      obtain ⟨-, rfl, he⟩ := Expr.assign.inj h
      refine ((eval_like e d he).bind fun v w hvw => ?_).blaming _ _
      exact (assignName_like x hvw).bind fun _ _ _ => pure_like hvw
    | _ => cases h
  | .call m f args, e', h => by
    cases e' with
    | call m' f' args' =>
      obtain ⟨-, hf, hargs⟩ := Expr.call.inj h
      refine ((eval_like f f' hf).bind fun v w hvw => ?_).blaming _ _
      exact (evalAll_like args args' hargs).bind fun vs ws hvws => callValue_like hvw hvws
    | _ => cases h
  | .lambda m params body, e', h => by
    cases e' with
    | lambda m' params' body' =>
      obtain ⟨-, rfl, hbody⟩ := Expr.lambda.inj h
      exact newFunction_like none params hbody
    | _ => cases h
  | .get m e x, e', h => by
    cases e' with
    | get m' d x' =>
      obtain ⟨-, he, rfl⟩ := Expr.get.inj h
      refine ((eval_like e d he).bind fun v w hvw => ?_).blaming _ _
      refine (objectId_like hvw).bind ?_
      rintro id _ rfl
      exact readField_like id x
    | _ => cases h
  | .set m e x v, e', h => by
    cases e' with
    | set m' d x' v' =>
      obtain ⟨-, he, rfl, hv⟩ := Expr.set.inj h
      refine ((eval_like e d he).bind fun o o' ho => ?_).blaming _ _
      refine (objectId_like ho).bind ?_
      rintro id _ rfl
      refine (eval_like v v' hv).bind fun w w' hw => ?_
      exact (writeField_like id x hw).bind fun _ _ _ => pure_like hw
    | _ => cases h

theorem evalAll_like : ∀ es es' : List Expr, unmarkedEach es = unmarkedEach es' →
    (evalAll es).Like base base' ValuesLike (evalAll es')
  | [], es', h => by
    cases es' with
    | nil => exact pure_like rfl
    | cons e es => cases h
  | e :: es, es', h => by
    cases es' with
    | nil => cases h
    | cons e' es' =>
      obtain ⟨he, hes⟩ := List.cons.inj h
      refine (eval_like e e' he).bind fun v w hvw => ?_
      refine (evalAll_like es es' hes).bind fun vs ws hvws => pure_like ?_
      rw [ValuesLike, List.map_cons, List.map_cons, hvw, hvws]

end

theorem evalOption_like {e e' : Option Expr} (h : unmarkedOption e = unmarkedOption e') :
    (evalOption e).Like base base' ValueLike (evalOption e') := by
  cases e with
  | none =>
    cases e' with
    | none => exact pure_like rfl
    | some e' => cases h
  | some e =>
    cases e' with
    | none => cases h
    | some e' => exact eval_like e e' (Option.some.inj h)

/-! ### Statements -/

/-- The same way to end, with a like result. -/
inductive FlowLike : Flow → Flow → Prop
  | next : FlowLike .next .next
  | leave : FlowLike .leave .leave
  | result {v w : Value} (h : ValueLike v w) : FlowLike (.result v) (.result w)

theorem repeatWhile_like {condition condition' : Action Value} {body body' : Action Flow}
    (hcondition : condition.Like base base' ValueLike condition')
    (hbody : body.Like base base' FlowLike body') {n n' : Nat} (hn : n ≤ n') :
    (repeatWhile condition body n).Like base base' FlowLike
      (repeatWhile condition' body' n') := by
  induction n generalizing n' with
  | zero => exact fun _ _ _ => .exhausted trivial
  | succ n ih =>
    obtain ⟨m, rfl⟩ : ∃ m, n' = m + 1 := ⟨n' - 1, by omega⟩
    refine hcondition.bind fun v w hvw => ?_
    rw [← Value.truthy_unmarked, hvw, Value.truthy_unmarked]
    split
    · refine hbody.bind fun flow flow' hflow => ?_
      cases hflow with
      | next => exact ih (by omega)
      | leave => exact pure_like .next
      | result h => exact pure_like (.result h)
    · exact pure_like .next

mutual

/-- Statements that are the same but for marks end alike, if the second may take as many turns of
its loops. -/
theorem exec_like {fuel fuel' : Nat} (hle : fuel ≤ fuel') : ∀ s s' : Stmt,
    s.unmarked = s'.unmarked → (exec fuel s).Like base base' FlowLike (exec fuel' s')
  | .expression m e, s', h => by
    cases s' with
    | expression m' e' =>
      exact (eval_like e e' (Stmt.expression.inj h).2).bind fun _ _ _ => pure_like .next
    | _ => cases h
  | .print m e, s', h => by
    cases s' with
    | print m' e' =>
      refine (eval_like e e' (Stmt.print.inj h).2).bind fun v w hvw => ?_
      rw [← Value.display_unmarked, hvw, Value.display_unmarked]
      exact (printLine_like _).bind fun _ _ _ => pure_like .next
    | _ => cases h
  | .varDecl m x e, s', h => by
    cases s' with
    | varDecl m' x' e' =>
      obtain ⟨-, rfl, he⟩ := Stmt.varDecl.inj h
      refine (evalOption_like he).bind fun v w hvw => ?_
      exact (defineName_like x hvw).bind fun _ _ _ => pure_like .next
    | _ => cases h
  | .block m body, s', h => by
    cases s' with
    | block m' body' =>
      refine (execAll_like hle body body' (Stmt.block.inj h).2).within fun e e' he => ?_
      rw [Environment.push, Environment.push, Environment.unmarked_pushOn,
        Environment.unmarked_pushOn, he, ← e.scope_unmarked, he, e'.scope_unmarked]
    | _ => cases h
  | .ifElse m c t e, s', h => by
    cases s' with
    | ifElse m' c' t' e' =>
      obtain ⟨-, hc, ht, he⟩ := Stmt.ifElse.inj h
      refine (eval_like c c' hc).bind fun v w hvw => ?_
      rw [← Value.truthy_unmarked, hvw, Value.truthy_unmarked]
      split
      · exact exec_like hle t t' ht
      · exact execOption_like hle e e' he
    | _ => cases h
  | .whileDo m c b, s', h => by
    cases s' with
    | whileDo m' c' b' =>
      obtain ⟨-, hc, hb⟩ := Stmt.whileDo.inj h
      exact repeatWhile_like (eval_like c c' hc) (exec_like hle b b' hb) hle
    | _ => cases h
  | .funDecl m x params body, s', h => by
    cases s' with
    | funDecl m' x' params' body' =>
      obtain ⟨-, rfl, rfl, hbody⟩ := Stmt.funDecl.inj h
      refine (newFunction_like (some x) params hbody).bind fun v w hvw => ?_
      exact (defineName_like x hvw).bind fun _ _ _ => pure_like .next
    | _ => cases h
  | .returns m e, s', h => by
    cases s' with
    | returns m' e' =>
      exact (evalOption_like (Stmt.returns.inj h).2).bind fun v w hvw => pure_like (.result hvw)
    | _ => cases h
  | .breaks m e, s', h => by
    cases s' with
    | breaks m' e' =>
      exact (evalOption_like (Stmt.breaks.inj h).2).bind fun _ _ _ => pure_like .leave
    | _ => cases h
  | .classDecl m x, s', h => by
    cases s' with
    | classDecl m' x' =>
      obtain ⟨-, rfl⟩ := Stmt.classDecl.inj h
      refine (newClass_like x).bind fun v w hvw => ?_
      exact (defineName_like x hvw).bind fun _ _ _ => pure_like .next
    | _ => cases h

theorem execOption_like {fuel fuel' : Nat} (hle : fuel ≤ fuel') : ∀ s s' : Option Stmt,
    unmarkedElse s = unmarkedElse s' →
      (execOption fuel s).Like base base' FlowLike (execOption fuel' s')
  | none, s', h => by
    cases s' with
    | none => exact pure_like .next
    | some s' => cases h
  | some s, s', h => by
    cases s' with
    | none => cases h
    | some s' => exact exec_like hle s s' (Option.some.inj h)

theorem execAll_like {fuel fuel' : Nat} (hle : fuel ≤ fuel') : ∀ ss ss' : List Stmt,
    unmarkedAll ss = unmarkedAll ss' →
      (execAll fuel ss).Like base base' FlowLike (execAll fuel' ss')
  | [], ss', h => by
    cases ss' with
    | nil => exact pure_like .next
    | cons s' ss' => cases h
  | s :: ss, ss', h => by
    cases ss' with
    | nil => cases h
    | cons s' ss' =>
      obtain ⟨hs, hss⟩ := List.cons.inj h
      refine (exec_like hle s s' hs).bind fun flow flow' hflow => ?_
      cases hflow with
      | next => exact execAll_like hle ss ss' hss
      | leave => exact pure_like .leave
      | result h => exact pure_like (.result h)

end

/-! ### Calls and programs -/

theorem callsLike {fuel fuel' : Nat} (hle : fuel ≤ fuel') : CallsLike base base' fuel fuel' := by
  intro f g args args' s t hfg hargs hs
  have hbody : unmarkedAll f.body = unmarkedAll g.body := congrArg Function.body hfg
  have henter : ∀ e e' : Environment, e.unmarked = e'.unmarked →
      (f.enter args e).unmarked = (g.enter args' e').unmarked := by
    intro e e' he
    rw [Function.unmarked_enter, Function.unmarked_enter, hfg, hargs, he]
  have hrun : Action.Like base base' FlowLike (execAll fuel f.body) (execAll fuel' g.body) :=
    execAll_like hle _ _ hbody
  have hrun := ((hrun.inProgram f.program g.program).within henter).counted
  refine hrun.bind (fun flow flow' hflow => ?_) s t hs
  cases hflow with
  | next => exact pure_like rfl
  | leave => exact fail_like _
  | result h => exact pure_like h

theorem runStatements_like {fuel fuel' : Nat} (hle : fuel ≤ fuel') {ss ss' : List Stmt}
    (h : unmarkedAll ss = unmarkedAll ss') :
    (runStatements fuel ss).Like base base' (fun _ _ => True) (runStatements fuel' ss') := by
  induction ss generalizing ss' with
  | nil =>
    cases ss' with
    | nil => exact pure_like trivial
    | cons s' ss' => cases h
  | cons s ss ih =>
    cases ss' with
    | nil => cases h
    | cons s' ss' =>
      obtain ⟨hs, hss⟩ := List.cons.inj h
      refine (exec_like hle s s' hs).bind fun flow flow' hflow => ?_
      cases hflow with
      | next => exact ih hss
      | leave => exact stopWith_like rfl
      | result h => exact stopWith_like rfl

/-! ### The ends of programs -/

/-- With enough fuel, statements end with the result `r` in the state `t`. -/
def Halts (ss : List Stmt) (s : State) (r : Except Stop Unit) (t : State) : Prop :=
  r ≠ .error .outOfFuel ∧ ∃ fuel, (runStatements fuel ss).run fuel s = (r, t)

/-- What fuel suffices for, more fuel suffices for too, also from an alike state. -/
theorem run_like {fuel fuel' : Nat} (hle : fuel ≤ fuel') {ss ss' : List Stmt} {s s' t : State}
    {r : Except Stop Unit} (hrun : (runStatements fuel ss).run fuel s = (r, t))
    (hr : r ≠ .error .outOfFuel) (hss : unmarkedAll ss = unmarkedAll ss')
    (hs : s.Alike base base' s') :
    ∃ r' t', (runStatements fuel' ss').run fuel' s' = (r', t') ∧
      ResultLike (fun _ _ => True) r r' ∧ t.Alike base base' t' := by
  have hlike := (runStatements_like hle hss s s' hs).run (callsLike hle) hle
  rw [show (runStatements fuel ss s).run fuel = (r, t) from hrun] at hlike
  rcases hlike with hfuel | ⟨hresult, hstate⟩
  · exact absurd hfuel hr
  · exact ⟨_, _, rfl, hresult, hstate⟩

theorem ResultLike.ne_outOfFuel {R : α → β → Prop} {r : Except Stop α} {r' : Except Stop β}
    (h : ResultLike R r r') : r' ≠ .error .outOfFuel := by
  cases h <;> simp

theorem ResultLike.join {r r' r'' : Except Stop Unit}
    (h : ResultLike (fun _ _ => True) r r'') (h' : ResultLike (fun _ _ => True) r' r'') :
    ResultLike (fun _ _ => True) r r' := by
  cases h with
  | ok =>
    cases h'
    exact .ok trivial
  | error he =>
    cases h' with
    | error he' => exact .error (he.trans he'.symm)

theorem State.Alike.join {s t u : State} (h : s.Alike base base' u) (h' : t.Alike base' base' u) :
    s.Alike base base' t := by
  obtain ⟨out, hs, hu⟩ := h.output
  obtain ⟨out', ht, hu'⟩ := h'.output
  obtain rfl : out = out' := String.append_right_inj base' |>.1 (hu.symm.trans hu')
  exact ⟨h.unmarked.trans h'.unmarked.symm, out, hs, ht⟩

theorem State.Alike.self {s t : State} (h : s.Alike base base' t) : t.Alike base' base' t := by
  obtain ⟨out, -, ht⟩ := h.output
  exact ⟨rfl, out, ht, ht⟩

namespace Halts

variable {ss ss' : List Stmt} {s s' t t' : State} {r r' : Except Stop Unit}

theorem exists_like (h : Halts ss s r t) (hss : unmarkedAll ss = unmarkedAll ss')
    (hs : s.Alike base base' s') : ∃ r' t', Halts ss' s' r' t' := by
  obtain ⟨hr, fuel, hrun⟩ := h
  obtain ⟨r', t', hrun', hresult, -⟩ := run_like (Nat.le_refl fuel) hrun hr hss hs
  exact ⟨r', t', hresult.ne_outOfFuel, fuel, hrun'⟩

/-- Programs that are the same but for marks end alike, whatever fuel each of them takes. -/
theorem like (h : Halts ss s r t) (h' : Halts ss' s' r' t')
    (hss : unmarkedAll ss = unmarkedAll ss') (hs : s.Alike base base' s') :
    ResultLike (fun _ _ => True) r r' ∧ t.Alike base base' t' := by
  obtain ⟨hr, fuel, hrun⟩ := h
  obtain ⟨hr', fuel', hrun'⟩ := h'
  -- both runs are compared with one that has the fuel of either
  obtain ⟨q, u, hmax, hresult, hstate⟩ := run_like (Nat.le_max_left fuel fuel') hrun hr hss hs
  obtain ⟨q', u', hmax', hresult', hstate'⟩ :=
    run_like (Nat.le_max_right fuel fuel') hrun' hr' rfl hs.self
  obtain ⟨rfl, rfl⟩ := Prod.mk.inj (hmax.symm.trans hmax')
  exact ⟨hresult.join hresult', hstate.join hstate'⟩

end Halts

/-! ### Programs one after the other -/

theorem runStatements_append (fuel : Nat) (ss ss' : List Stmt) :
    runStatements fuel (ss ++ ss') = runStatements fuel ss >>= fun _ => runStatements fuel ss' := by
  induction ss with
  | nil => rfl
  | cons s ss ih =>
    rw [List.cons_append, runStatements, runStatements, bind_assoc]
    congr 1
    funext flow
    cases flow with
    | next => exact ih
    | leave => rfl
    | result v => rfl

namespace Halts

variable {ss ss' : List Stmt} {s t u : State} {r : Except Stop Unit}

theorem append (h : Halts ss s (.ok ()) t) (h' : Halts ss' t r u) :
    ∃ r' u', Halts (ss ++ ss') s r' u' := by
  obtain ⟨hok, fuel, hrun⟩ := h
  obtain ⟨hr, fuel', hrun'⟩ := h'
  -- the larger fuel suffices for both halves
  have hs : s.Alike s.output s.output s := ⟨rfl, "", by simp, by simp⟩
  obtain ⟨q, t', hmax, hresult, hstate⟩ := run_like (Nat.le_max_left fuel fuel') hrun hok rfl hs
  obtain ⟨r', u', hmax', hresult', -⟩ := run_like (Nat.le_max_right fuel fuel') hrun' hr rfl hstate
  cases hresult with
  | ok =>
    refine ⟨r', u', hresult'.ne_outOfFuel, max fuel fuel', ?_⟩
    rw [runStatements_append, Action.run_bind, hmax]
    exact hmax'

/-- If both halves of a program have an end, then so does the first half on its own, and if that
is no error, the second half after it. -/
theorem of_append (h : Halts (ss ++ ss') s r u) :
    ∃ q t, Halts ss s q t ∧ (q = .ok () → Halts ss' t r u) := by
  obtain ⟨hr, fuel, hrun⟩ := h
  rw [runStatements_append, Action.run_bind] at hrun
  split at hrun
  · next t hfirst => exact ⟨.ok (), t, ⟨by simp, fuel, hfirst⟩, fun _ => ⟨hr, fuel, hrun⟩⟩
  · next e t hfirst =>
    obtain ⟨rfl, rfl⟩ := Prod.mk.inj hrun
    exact ⟨.error e, t, ⟨hr, fuel, hfirst⟩, nofun⟩

end Halts

end Lox
