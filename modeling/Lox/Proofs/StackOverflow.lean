import Lox.Proofs.CallDepth
import Lox.Proofs.ErrorLocation
import Lox.Proofs.Fuel

/-!
# Too many bodies

A call of a function fails for want of room exactly where as many bodies are running as may, and
then nothing has changed since its arguments were evaluated. No other call fails so, and no other
error of a run is this one.

* `Expr.Calls`, `Value.Takes`: what is called at a point, and functions that take the arguments;
* `callValue_eq_overflow_iff`, `Expr.Calls.ends_iff`: how calls end;
* `Task.Overflowed`: a point that leads to a call without room;
* `Action.Overflows`, `eval_overflows`, `exec_overflows`: what fails so comes from such a call, by
  induction on the room that is left;
* `call_depth`.
-/

namespace Lox

variable {α β : Type} {fuel : Nat}

/-! ### Calls -/

/-- A function of a program that has as many parameters as there are arguments. -/
def Value.Takes (v : Value) (args : List Value) : Prop :=
  ∃ id f, v = .function id f ∧ f.params.length = args.length

/-- An expression is a call, in which the value `v` is called with arguments in the state `u`. -/
def Expr.Calls (e : Expr) (s : State) (v : Value) (args : List Value) (u : State) : Prop :=
  ∃ m callee es t, e = .call m callee es ∧ callee.Ends s (.ok v) t ∧ EndEach es t (.ok args) u

/-- An action comes to an end without calls, and does not fail for want of room. -/
inductive Step.Quiet : Step α → Prop
  | done {a : α} {t : State} : Quiet (.done a t)
  | stop {e : RuntimeError} {t : State} (h : e.fault ≠ .stackOverflow) : Quiet (.stop (.error e) t)

theorem ofExcept_quiet {F : Fault → Prop} {r : Except Fault Value} (h : Returns F r)
    (hF : ¬ F .stackOverflow) (s : State) : (ofExcept r s).Quiet := by
  cases r with
  | ok v => exact .done
  | error fault =>
    have hne : fault ≠ .stackOverflow := fun heq => hF (heq ▸ h)
    exact .stop hne

theorem fail_quiet {fault : Fault} (h : fault ≠ .stackOverflow) (s : State) :
    (fail fault s : Step α).Quiet :=
  .stop h

/-- A call of a function runs its body, or fails for want of room. -/
theorem callValue_function {id : Nat} {f : Function} {args : List Value}
    (h : f.params.length = args.length) (s : State) : callValue (.function id f) args s =
      if maxDepth ≤ s.depth then fail .stackOverflow s else .call f args s .ofReply := by
  rw [callValue]
  simp [Value.arity?, h, requestCall]

/-- A call of anything else, or with another number of arguments, does not want room. -/
theorem callValue_quiet {v : Value} {args : List Value} (h : ¬ v.Takes args) (s : State) :
    (callValue v args s).Quiet := by
  have mismatch {v : Value} {arity : Nat} (hv : v.arity? = some arity)
      (hne : arity ≠ args.length) : (callValue v args s).Quiet := by
    have hcall : callValue v args = fail (.arityMismatch arity args.length) := by
      unfold callValue
      rw [hv]
      exact if_pos hne
    rw [hcall]
    exact fail_quiet (by simp) s
  cases v with
  | function id f => exact mismatch rfl fun hlength => h ⟨id, f, rfl, hlength⟩
  | native id f =>
    by_cases hlength : f.arity = args.length
    · have hcall : callValue (.native id f) args s = callNative f args s := by
        simp [callValue, Value.arity?, hlength]
      rw [hcall]
      exact ofExcept_quiet (Builtin.returns_apply _ _ _) not_false _
    · exact mismatch rfl hlength
  | cls id name =>
    by_cases hlength : 0 = args.length
    · have hcall : callValue (.cls id name) args s = newObject name s := by
        simp [callValue, Value.arity?, ← hlength]
      rw [hcall]
      exact .done
    · exact mismatch rfl hlength
  | _ => exact fail_quiet (by simp) s

theorem callValue_eq_overflow_iff {v : Value} {args : List Value} {s : State} :
    callValue v args s = fail .stackOverflow s ↔ v.Takes args ∧ maxDepth ≤ s.depth := by
  constructor
  · intro h
    by_cases htakes : v.Takes args
    · obtain ⟨id, f, rfl, hlength⟩ := htakes
      refine ⟨⟨id, f, rfl, hlength⟩, Decidable.byContradiction fun hroom => ?_⟩
      rw [callValue_function hlength, if_neg hroom] at h
      cases h
    · have hquiet := callValue_quiet htakes s
      rw [h] at hquiet
      cases hquiet with
      | stop hne => exact absurd rfl hne
  · rintro ⟨⟨id, f, rfl, hlength⟩, hfull⟩
    rw [callValue_function hlength, if_pos hfull]

/-! ### How calls end -/

theorem blaming_run_congr {x y : Action α} {s u : State} (h : x.run fuel s = y.run fuel u)
    (span : Span) : (blaming span x).run fuel s = (blaming span y).run fuel u := by
  rw [Action.run, Action.run] at h
  rw [Action.run, Action.run, blaming, blaming, Step.run_adjust, Step.run_adjust, h]

/-- Fuel that suffices for an expression, suffices in a larger amount. -/
theorem Expr.Ends.exists_enough {e : Expr} {s t : State} {r : Reply} (h : e.Ends s r t) :
    ∃ enough, ∀ fuel ≥ enough, (eval e).run fuel s = (r, t) := by
  obtain ⟨hr, enough, hrun⟩ := h
  exact ⟨enough, fun fuel hle => (eval_refines e s).run_eq hle hrun hr⟩

theorem Expr.Ends.unique {e : Expr} {s t t' : State} {r r' : Reply} (h : e.Ends s r t)
    (h' : e.Ends s r' t') : r = r' ∧ t = t' := by
  obtain ⟨n, hn⟩ := h.exists_enough
  obtain ⟨n', hn'⟩ := h'.exists_enough
  exact Prod.mk.inj ((hn _ (Nat.le_max_left n n')).symm.trans (hn' _ (Nat.le_max_right n n')))

theorem EndEach.exists_enough {es : List Expr} {s t : State} {r : Except Stop (List Value)}
    (h : EndEach es s r t) : ∃ enough, ∀ fuel ≥ enough, (evalAll es).run fuel s = (r, t) := by
  obtain ⟨hr, enough, hrun⟩ := h
  exact ⟨enough, fun fuel hle => ((evalAll_like es es rfl).refines s).run_eq hle hrun hr⟩

theorem eval_call_run {m : Mark} {e : Expr} {es : List Expr} {v : Value} {args : List Value}
    {s t u : State} (hf : (eval e).run fuel s = (.ok v, t))
    (hes : (evalAll es).run fuel t = (.ok args, u)) :
    (eval (.call m e es)).run fuel s = (blaming m.span (callValue v args)).run fuel u := by
  have hbody : ((do let callee ← eval e; let args ← evalAll es; callValue callee args) :
      Action Value).run fuel s = (callValue v args).run fuel u := by
    rw [Action.run_bind, hf]
    show ((evalAll es) >>= _).run fuel t = _
    rw [Action.run_bind, hes]
  rw [eval]
  exact blaming_run_congr hbody m.span

namespace Expr.Calls

variable {e : Expr} {s u : State} {v : Value} {args : List Value}

/-- A call that needs no body ends in one way. -/
theorem ends_iff (h : e.Calls s v args u) {r : Reply} {w : State}
    (hrun : ∀ fuel, (blaming e.span (callValue v args)).run fuel u = (r, w))
    (hr : r ≠ .error .outOfFuel) (r' : Reply) (w' : State) :
    e.Ends s r' w' ↔ r' = r ∧ w' = w := by
  obtain ⟨m, callee, es, t, rfl, hf, hes⟩ := h
  obtain ⟨n, hn⟩ := hf.exists_enough
  obtain ⟨n', hn'⟩ := hes.exists_enough
  have hcall : (Expr.call m callee es).Ends s r w :=
    ⟨hr, max n n', (eval_call_run (hn _ (Nat.le_max_left n n'))
      (hn' _ (Nat.le_max_right n n'))).trans (hrun _)⟩
  constructor
  · exact fun h => h.unique hcall
  · rintro ⟨rfl, rfl⟩
    exact hcall

theorem depth (h : e.Calls s v args u) : u.depth = s.depth := by
  obtain ⟨m, callee, es, t, rfl, hf, hes⟩ := h
  exact hes.depth.trans hf.depth

/-- Where there is no room, a call fails, and it changes nothing. -/
theorem ends_of_full (h : e.Calls s v args u) (htakes : v.Takes args) (hfull : maxDepth ≤ u.depth)
    (r : Reply) (w : State) :
    e.Ends s r w ↔ r = .error (.error ⟨.stackOverflow, some e.span⟩) ∧ w = u := by
  have hrun (fuel : Nat) : (blaming e.span (callValue v args)).run fuel u =
      (.error (.error ⟨.stackOverflow, some e.span⟩), u) := by
    rw [Action.run, blaming, callValue_eq_overflow_iff.2 ⟨htakes, hfull⟩]
    rfl
  exact h.ends_iff hrun (by simp) r w

/-- A call of anything but a function that takes the arguments comes to an end, and does not fail
for want of room. -/
theorem ends_of_not_takes (h : e.Calls s v args u) (htakes : ¬ v.Takes args) :
    ∃ r w, (∀ r' w', e.Ends s r' w' ↔ r' = r ∧ w' = w) ∧
      ∀ err, r = .error (.error err) → err.fault ≠ .stackOverflow := by
  have hquiet := callValue_quiet htakes u
  generalize hx : callValue v args u = x at hquiet
  have hrun (fuel : Nat) : (blaming e.span (callValue v args)).run fuel u =
      (x.adjust (·.blame e.span) id).run fuel := by
    rw [Action.run, blaming, hx]
  cases hquiet with
  | @done a t => exact ⟨.ok a, t, h.ends_iff hrun (by simp), by simp⟩
  | @stop err t hne =>
    refine ⟨.error (.error (err.blame e.span)), t, h.ends_iff hrun (by simp), ?_⟩
    rintro _ ⟨⟩
    exact hne

end Expr.Calls

/-! ### Calls without room -/

/-- What an error leaves as it is on its way out. -/
structure Memory where
  frames : Array (Bindings Value)
  objects : Array (Bindings Value)
  nextId : Nat
  output : String

def State.memory (s : State) : Memory := ⟨s.env.frames, s.objects, s.nextId, s.output⟩

/-- A point is a call of a function that takes the arguments, for which there is no room. When the
call has failed, nothing has changed. -/
def Task.Refused (b : Task) (w t : State) : Prop :=
  ∃ e v args u, b = .node (.expr e) ∧ e.Calls w v args u ∧ v.Takes args ∧ maxDepth ≤ u.depth ∧
    t.memory = u.memory

/-- A point leads to a call for which there is no room. -/
def Task.Overflowed (a : Task) (s t : State) : Prop :=
  ∃ fs b w, a.Nests s fs b w ∧ b.Refused w t

/-- The fault is that too many bodies are running. -/
def Stop.IsOverflow : Stop → Prop
  | error e => e.fault = .stackOverflow
  | outOfFuel => False

namespace Task.Overflowed

variable {a b : Task} {s t u : State}

theorem of_leads (hstep : a.Leads s b u) (ha : a.isCall = false) (h : b.Overflowed u t) :
    a.Overflowed s t := by
  obtain ⟨fs, c, w, hfs, hc⟩ := h
  exact ⟨fs, c, w, hfs.of_leads hstep ha, hc⟩

theorem of_body {f : Function} {args : List Value}
    (h : (Task.body f.body).Overflowed (f.entered args s) t) :
    (Task.call f args).Overflowed s t := by
  obtain ⟨fs, c, w, hfs, hc⟩ := h
  exact ⟨fs ++ [f], c, w, hfs.of_body, hc⟩

/-- Only what was kept in memory matters afterwards. -/
theorem of_memory_eq (h : a.Overflowed s t) (heq : u.memory = t.memory) : a.Overflowed s u := by
  obtain ⟨fs, c, w, hfs, e, v, args, u', hb, hcalls, htakes, hfull, ht⟩ := h
  exact ⟨fs, c, w, hfs, e, v, args, u', hb, hcalls, htakes, hfull, heq.trans ht⟩

end Task.Overflowed

/-- If an action fails for want of room, the state at its end is as `P` says. -/
def Action.Overflows (fuel : Nat) (P : State → Prop) (x : Action α) (s : State) : Prop :=
  ∀ e t, x.run fuel s = (.error e, t) → e.IsOverflow → P t

namespace Action

variable {P Q : State → Prop} {x : Action α} {s : State}

theorem Overflows.mono (hx : x.Overflows fuel P s) (h : ∀ t, P t → Q t) :
    x.Overflows fuel Q s := fun e t hrun he => h t (hx e t hrun he)

/-- What fails after a next point, fails after the point before. -/
theorem Overflows.of_leads {a b : Task} {u v : State} (hstep : a.Leads s b u)
    (hx : x.Overflows fuel (b.Overflowed u) v) (ha : a.isCall = false) :
    x.Overflows fuel (a.Overflowed s) v := hx.mono fun _ => .of_leads hstep ha

theorem overflows_of_quiet (h : (x s).Quiet) : x.Overflows fuel P s := by
  intro e t hrun he
  rw [run] at hrun
  generalize x s = y at h hrun
  cases h with
  | done => cases hrun
  | stop hne =>
    cases hrun
    exact absurd he hne

theorem Overflows.bind {g : α → Action β} (hx : x.Overflows fuel P s)
    (hg : ∀ a u, x.run fuel s = (.ok a, u) → (g a).Overflows fuel P u) :
    (x >>= g).Overflows fuel P s := by
  intro e t hrun he
  rw [run_bind] at hrun
  split at hrun
  · next a u ha => exact hg a u ha e t hrun he
  · next e' u he' =>
    cases hrun
    exact hx e t he' he

theorem Overflows.blaming (hx : x.Overflows fuel P s) (span : Span) :
    (blaming span x).Overflows fuel P s := by
  intro e t hrun he
  rw [run, Lox.blaming, Step.run_adjust] at hrun
  split at hrun
  · cases hrun
  · next e' u he' =>
    cases hrun
    cases e' with
    | error e' => exact hx _ _ he' he
    | outOfFuel => cases he

/-- The scope that is put back after a block does not matter. -/
theorem Overflows.block (hx : x.Overflows fuel P { s with env := s.env.push })
    (hP : ∀ t u, P t → u.memory = t.memory → P u) : (within .push x).Overflows fuel P s := by
  intro e t hrun he
  rw [run, within, Step.run_adjust] at hrun
  split at hrun
  · cases hrun
  · next e' u he' =>
    cases hrun
    exact hP u _ (hx _ _ he' he) rfl

end Action

theorem readName_quiet (name : String) (s : State) : (readName name s).Quiet := by
  rw [readName]
  split
  · exact .done
  · exact fail_quiet (by simp) s

theorem assignName_quiet (name : String) (value : Value) (s : State) :
    (assignName name value s).Quiet := by
  rw [assignName]
  split
  · exact .done
  · exact fail_quiet (by simp) s

theorem objectId_quiet (v : Value) (s : State) : (objectId v s).Quiet := by
  cases v with
  | object => exact .done
  | _ => exact fail_quiet (by simp) s

theorem objectId_run {v : Value} {id : Nat} {s t : State}
    (h : (objectId v).run fuel s = (.ok id, t)) :
    (∃ className, v = .object id className) ∧ t = s := by
  cases v with
  | object id className =>
    cases h
    exact ⟨⟨className, rfl⟩, rfl⟩
  | _ => cases h

theorem readField_quiet (id : Nat) (name : String) (s : State) : (readField id name s).Quiet := by
  rw [readField]
  split
  · exact .done
  · exact fail_quiet (by simp) s

/-! ### Expressions and statements -/

/-- Where `d` bodies are running and another one may, the calls that fail for want of room lead to a
call for which there is none. -/
def CallsOverflow (fuel d : Nat) : Prop :=
  ∀ f args s, s.depth = d → d < maxDepth → ∀ e t,
    runCalls fuel fuel [] (f.apply fuel args s) = (.error e, t) → e.IsOverflow →
      (Task.call f args).Overflowed s t

section Code

variable {d : Nat} {s : State}

/-- A call fails so at once, or in the body of the function. -/
theorem callValue_overflows (H : CallsOverflow fuel d) {m : Mark} {callee : Expr} {es : List Expr}
    {v : Value} {args : List Value} {t u : State} (hs : s.depth = d)
    (hf : callee.Ends s (.ok v) t) (hes : EndEach es t (.ok args) u) :
    (callValue v args).Overflows fuel ((Task.node (.expr (.call m callee es))).Overflowed s) u := by
  have hcalls : (Expr.call m callee es).Calls s v args u := ⟨m, callee, es, t, rfl, hf, hes⟩
  by_cases htakes : v.Takes args
  · have htakes' := htakes
    obtain ⟨_, f, rfl, hlength⟩ := htakes'
    intro e w hrun he
    rw [Action.run, callValue_function hlength] at hrun
    split at hrun
    · next hfull =>
      cases hrun
      exact ⟨[], _, s, .here, _, _, _, u, rfl, hcalls, htakes, hfull, rfl⟩
    · next hroom =>
      have hdepth : u.depth = d := hcalls.depth.trans hs
      have hlt : u.depth < maxDepth := Nat.lt_of_not_le hroom
      refine .of_leads (.call hf hes hlength hlt) rfl (H f args u hdepth (hdepth ▸ hlt) e w ?_ he)
      rw [Step.run_call] at hrun
      generalize runCalls fuel fuel [] (f.apply fuel args u) = p at hrun
      obtain ⟨r, t'⟩ := p
      cases r with
      | ok v => cases hrun
      | error e' =>
        cases hrun
        rfl
  · exact Action.overflows_of_quiet (callValue_quiet htakes u)

theorem ends_of_run {e : Expr} {v : Value} {t : State}
    (h : (eval e).run fuel s = (.ok v, t)) : e.Ends s (.ok v) t :=
  ⟨nofun, fuel, h⟩

open Lox.Action in
mutual

theorem eval_overflows (H : CallsOverflow fuel d) : ∀ (e : Expr) {s : State}, s.depth = d →
    (eval e).Overflows fuel ((Task.node (.expr e)).Overflowed s) s
  | .literal _ v, _, _ => by
    rw [eval]
    exact overflows_of_quiet .done
  | .group _ e, _, hs => by
    rw [eval]
    exact (Overflows.of_leads (.first rfl) (eval_overflows H e hs) rfl).blaming _
  | .unary _ op e, _, hs => by
    rw [eval]
    refine Overflows.blaming (.bind (.of_leads (.first rfl) (eval_overflows H e hs) rfl)
      fun v u _ => ?_) _
    exact overflows_of_quiet (ofExcept_quiet (op.returns_apply v) not_false u)
  | .binary _ l op r, _, hs => by
    rw [eval]
    refine Overflows.blaming (.bind (.of_leads (.first rfl) (eval_overflows H l hs) rfl)
      fun v u hl => ?_) _
    have hu := (ends_of_run hl).depth.trans hs
    refine .bind (.of_leads (.right (ends_of_run hl)) (eval_overflows H r hu) rfl) fun v' u' _ => ?_
    exact overflows_of_quiet (ofExcept_quiet (op.returns_apply v v') not_false u')
  | .logical _ l op r, _, hs => by
    rw [eval]
    refine Overflows.blaming (.bind (.of_leads (.first rfl) (eval_overflows H l hs) rfl)
      fun v u hl => ?_) _
    have hu := (ends_of_run hl).depth.trans hs
    split
    · exact overflows_of_quiet .done
    · next hv =>
      have hopen : op.decides v = false := Bool.not_eq_true _ ▸ hv
      exact .of_leads (.undecided (ends_of_run hl) hopen) (eval_overflows H r hu) rfl
  | .var _ x, s, _ => by
    rw [eval]
    exact (overflows_of_quiet (readName_quiet x s)).blaming _
  | .assign _ x e, _, hs => by
    rw [eval]
    refine Overflows.blaming (.bind (.of_leads (.first rfl) (eval_overflows H e hs) rfl)
      fun v u _ => ?_) _
    exact .bind (overflows_of_quiet (assignName_quiet x v u)) fun _ _ _ => overflows_of_quiet .done
  | .call _ f es, _, hs => by
    rw [eval]
    refine Overflows.blaming (.bind (.of_leads (.first rfl) (eval_overflows H f hs) rfl)
      fun v u hf => ?_) _
    have hu := (ends_of_run hf).depth.trans hs
    refine .bind (.of_leads (.arguments (ends_of_run hf)) (evalAll_overflows H es hu) rfl)
      fun args w hes => ?_
    exact callValue_overflows H hs (ends_of_run hf) ⟨nofun, fuel, hes⟩
  | .lambda _ params body, _, _ => by
    rw [eval]
    exact overflows_of_quiet .done
  | .get _ e x, _, hs => by
    rw [eval]
    refine Overflows.blaming (.bind (.of_leads (.first rfl) (eval_overflows H e hs) rfl)
      fun v u _ => ?_) _
    exact .bind (overflows_of_quiet (objectId_quiet v u)) fun id w _ =>
      overflows_of_quiet (readField_quiet id x w)
  | .set _ e x e', _, hs => by
    rw [eval]
    refine Overflows.blaming (.bind (.of_leads (.first rfl) (eval_overflows H e hs) rfl)
      fun v u he => ?_) _
    have hu := (ends_of_run he).depth.trans hs
    refine .bind (overflows_of_quiet (objectId_quiet v u)) fun id w hid => ?_
    obtain ⟨⟨className, rfl⟩, rfl⟩ := objectId_run hid
    exact .bind (.of_leads (.value (ends_of_run he)) (eval_overflows H e' hu) rfl) fun _ _ _ =>
      .bind (overflows_of_quiet .done) fun _ _ _ => overflows_of_quiet .done

theorem evalAll_overflows (H : CallsOverflow fuel d) : ∀ (es : List Expr) {s : State},
    s.depth = d → (evalAll es).Overflows fuel ((Task.arguments es).Overflowed s) s
  | [], _, _ => by
    rw [evalAll]
    exact overflows_of_quiet .done
  | e :: es, _, hs => by
    rw [evalAll]
    refine .bind (.of_leads .argument (eval_overflows H e hs) rfl) fun v u he => ?_
    have hu := (ends_of_run he).depth.trans hs
    exact .bind (.of_leads (.nextArgument (ends_of_run he)) (evalAll_overflows H es hu) rfl)
      fun _ _ _ => overflows_of_quiet .done

end

/-- The operand that a statement may have is evaluated first. -/
theorem evalOption_overflows (H : CallsOverflow fuel d) {stmt : Stmt} {e : Option Expr}
    (hfirst : (Node.stmt stmt).first? = e) (hs : s.depth = d) :
    (evalOption e).Overflows fuel ((Task.node (.stmt stmt)).Overflowed s) s := by
  cases e with
  | none => exact Action.overflows_of_quiet .done
  | some e => exact .of_leads (.first hfirst) (eval_overflows H e hs) rfl

theorem ends_of_exec_run {stmt : Stmt} {flow : Flow} {t : State}
    (h : (exec fuel stmt).run fuel s = (.ok flow, t)) : stmt.Ends s (.ok flow) t :=
  ⟨nofun, fuel, h⟩

/-- A turn of a loop fails so, or a later one. -/
theorem repeatWhile_overflows (H : CallsOverflow fuel d) {m : Mark} {c : Expr} {b : Stmt}
    (hb : ∀ {s : State}, s.depth = d →
      (exec fuel b).Overflows fuel ((Task.node (.stmt b)).Overflowed s) s) (n : Nat)
    (hs : s.depth = d) : (repeatWhile (eval c) (exec fuel b) n).Overflows fuel
      ((Task.node (.stmt (.whileDo m c b))).Overflowed s) s := by
  induction n generalizing s with
  | zero =>
    intro e t hrun he
    cases hrun
    cases he
  | succ n ih =>
    rw [repeatWhile]
    refine .bind (.of_leads (.first rfl) (eval_overflows H c hs) rfl) fun v u hc => ?_
    have hu := (ends_of_run hc).depth.trans hs
    split
    · next hv =>
      refine .bind (.of_leads (.turn (ends_of_run hc) hv) (hb hu) rfl) fun flow w hflow => ?_
      have hends := ends_of_exec_run hflow
      have hw := hends.depth.trans hu
      cases flow with
      | next => exact .of_leads (.nextTurn (ends_of_run hc) hv hends) (ih hw) rfl
      | leave | result => exact Action.overflows_of_quiet .done
    · exact Action.overflows_of_quiet .done

open Lox.Action in
mutual

theorem exec_overflows (H : CallsOverflow fuel d) : ∀ (stmt : Stmt) {s : State}, s.depth = d →
    (exec fuel stmt).Overflows fuel ((Task.node (.stmt stmt)).Overflowed s) s
  | .expression _ e, _, hs => by
    rw [exec]
    exact .bind (.of_leads (.first rfl) (eval_overflows H e hs) rfl) fun _ _ _ =>
      overflows_of_quiet .done
  | .print _ e, _, hs => by
    rw [exec]
    exact .bind (.of_leads (.first rfl) (eval_overflows H e hs) rfl) fun _ _ _ =>
      .bind (overflows_of_quiet .done) fun _ _ _ => overflows_of_quiet .done
  | .varDecl _ x e, _, hs => by
    rw [exec]
    exact .bind (evalOption_overflows H rfl hs) fun _ _ _ =>
      .bind (overflows_of_quiet .done) fun _ _ _ => overflows_of_quiet .done
  | .block _ body, _, hs => by
    rw [exec]
    exact .block (.of_leads .block (execAll_overflows H body hs) rfl) fun _ _ => .of_memory_eq
  | .ifElse _ c t e, _, hs => by
    rw [exec]
    refine .bind (.of_leads (.first rfl) (eval_overflows H c hs) rfl) fun v u hc => ?_
    have hu := (ends_of_run hc).depth.trans hs
    split
    · next hv => exact .of_leads (.thenBranch (ends_of_run hc) hv) (exec_overflows H t hu) rfl
    · next hv =>
      cases e with
      | none =>
        rw [execOption]
        exact overflows_of_quiet .done
      | some e =>
        rw [execOption]
        have hfalse : v.truthy = false := Bool.not_eq_true _ ▸ hv
        exact .of_leads (.elseBranch (ends_of_run hc) hfalse) (exec_overflows H e hu) rfl
  | .whileDo _ c b, _, hs => by
    rw [exec]
    exact repeatWhile_overflows H (exec_overflows H b) fuel hs
  | .funDecl _ x params body, _, _ => by
    rw [exec]
    exact overflows_of_quiet .done
  | .returns _ e, _, hs => by
    rw [exec]
    exact .bind (evalOption_overflows H rfl hs) fun _ _ _ => overflows_of_quiet .done
  | .breaks _ e, _, hs => by
    rw [exec]
    exact .bind (evalOption_overflows H rfl hs) fun _ _ _ => overflows_of_quiet .done
  | .classDecl _ x, _, _ => by
    rw [exec]
    exact overflows_of_quiet .done

theorem execAll_overflows (H : CallsOverflow fuel d) : ∀ (ss : List Stmt) {s : State},
    s.depth = d → (execAll fuel ss).Overflows fuel ((Task.body ss).Overflowed s) s
  | [], _, _ => by
    rw [execAll]
    exact overflows_of_quiet .done
  | stmt :: rest, _, hs => by
    rw [execAll]
    refine .bind (.of_leads .statement (exec_overflows H stmt hs) rfl) fun flow u hflow => ?_
    have hends := ends_of_exec_run hflow
    cases flow with
    | next =>
      exact .of_leads (.nextStatement hends) (execAll_overflows H rest (hends.depth.trans hs)) rfl
    | leave | result => exact overflows_of_quiet .done

end

/-- At the top, nothing is left but what statements fail for. -/
theorem runStatements_overflows (H : CallsOverflow fuel d) (ss : List Stmt) (hs : s.depth = d) :
    (runStatements fuel ss).Overflows fuel ((Task.top ss).Overflowed s) s := by
  induction ss generalizing s with
  | nil => exact Action.overflows_of_quiet .done
  | cons stmt rest ih =>
    rw [runStatements]
    refine .bind (.of_leads .topStatement (exec_overflows H stmt hs) rfl) fun flow u hflow => ?_
    have hends := ends_of_exec_run hflow
    cases flow with
    | next => exact .of_leads (.nextTopStatement hends) (ih (hends.depth.trans hs)) rfl
    | leave | result => exact Action.overflows_of_quiet (.stop (by simp))

end Code

/-! ### Bodies -/

/-- Within a run that comes to an end, every step comes to an end, whatever waits for it. -/
theorem exists_answer {n : Nat} {stack : List Resumption} {x : Step Value} {q : Reply} {u : State}
    (h : runCalls fuel n stack x = (q, u)) (hq : q ≠ .error .outOfFuel) :
    ∃ r t c m, n = c + m ∧ ∀ m stack,
      runCalls fuel (c + m) stack x = runCalls fuel m stack (.ofReply r t) := by
  induction n using Nat.strongRecOn generalizing stack x with
  | ind n ih =>
    cases x with
    | done v s =>
      exact ⟨.ok v, s, 0, n, (Nat.zero_add n).symm, fun m _ => by rw [Nat.zero_add]; rfl⟩
    | stop e s =>
      exact ⟨.error e, s, 0, n, (Nat.zero_add n).symm, fun m _ => by rw [Nat.zero_add]; rfl⟩
    | call f args s k =>
      match n with
      | 0 =>
        cases h
        exact absurd rfl hq
      | n + 1 =>
        have hbody : runCalls fuel n (k :: stack) (f.apply fuel args s) = (q, u) := h
        obtain ⟨r, t, c, m, rfl, hcall⟩ := ih n (Nat.lt_succ_self n) hbody
        rw [hcall] at hbody
        match m with
        | 0 =>
          cases hbody
          exact absurd rfl hq
        | m + 1 =>
          have hback : runCalls fuel m stack (k r t) = (q, u) := by
            cases r <;> exact hbody
          -- one turn goes into the body and one comes back from it
          obtain ⟨r', t', c', m', rfl, hrest⟩ := ih m (by omega) hback
          exact ⟨r', t', c + c' + 2, m', by omega, runCalls_call hcall hrest⟩

/-- The calls of a run that comes to an end can be run one by one. -/
theorem run_of_runCalls {n : Nat} {x : Step Value} {q : Reply} {u : State}
    (h : runCalls fuel n [] x = (q, u)) (hq : q ≠ .error .outOfFuel) (hn : n ≤ fuel) :
    x.run fuel = (q, u) := by
  induction x generalizing n with
  | done v s =>
    cases n with
    | zero =>
      cases h
      exact absurd rfl hq
    | succ n => exact h
  | stop e s =>
    cases n with
    | zero =>
      cases h
      exact absurd rfl hq
    | succ n => exact h
  | call f args s k ih =>
    match n with
    | 0 =>
      cases h
      exact absurd rfl hq
    | n + 1 =>
      have hbody : runCalls fuel n [k] (f.apply fuel args s) = (q, u) := h
      obtain ⟨r, t, c, m, rfl, hcall⟩ := exists_answer hbody hq
      rw [hcall] at hbody
      match m with
      | 0 =>
        cases hbody
        exact absurd rfl hq
      | m + 1 =>
        have hback : runCalls fuel m [] (k r t) = (q, u) := by
          cases r <;> exact hbody
        -- run on its own, the call has all turns for itself, which are more than it needs
        obtain ⟨j, hj⟩ : ∃ j, fuel = c + (j + 1) := ⟨fuel - c - 1, by omega⟩
        have hanswer : runCalls fuel fuel [] (f.apply fuel args s) = (r, t) := by
          rw [show runCalls fuel fuel = runCalls fuel (c + (j + 1)) by rw [← hj], hcall]
          cases r <;> rfl
        rw [Step.run_call, hanswer]
        exact ih r t hback (by omega)

/-- Calls that fail for want of room lead to a call for which there is none, by induction on how
many bodies may still be entered. -/
theorem callsOverflow (fuel d : Nat) : CallsOverflow fuel d := by
  intro f args s hs hlt e t hrun he
  have hne : (.error e : Reply) ≠ .error .outOfFuel := by
    rintro ⟨⟩
    exact he
  -- the calls in the body are made where one more body is running
  have hdepth : (f.entered args s).depth = d + 1 := congrArg (· + 1) hs
  have hbody := execAll_overflows (callsOverflow fuel (d + 1)) f.body hdepth
  have hrun := run_of_runCalls hrun hne (Nat.le_refl fuel)
  rw [Function.apply_eq, Step.run_bind, Step.run_adjust] at hrun
  cases hexec : (execAll fuel f.body).run fuel (f.entered args s) with
  | mk r u =>
    have hexec' : (execAll fuel f.body (f.entered args s)).run fuel = (r, u) := hexec
    rw [hexec'] at hrun
    cases r with
    | error e' =>
      cases hrun
      exact (hbody _ u hexec he).of_body.of_memory_eq rfl
    | ok flow =>
      cases flow with
      | next | result => cases hrun
      | leave =>
        cases hrun
        cases he
termination_by maxDepth - d
decreasing_by omega

/-! ### Sessions -/

/-- What is known of a call at a point where the bodies of certain functions are running: `v` is
called with arguments in the state `u`. -/
structure Session.CallCounted (s : Session) (source : String) (fs : List Function) (e : Expr)
    (t : State) (v : Value) (args : List Value) (u : State) : Prop where
  depth : u.depth = fs.length
  /-- The call fails for want of room exactly if it needs a body and none may be added. -/
  fails_iff : callValue v args u = fail .stackOverflow u ↔ v.Takes args ∧ fs.length = maxDepth
  /-- Where there is no room for a body, nothing changes. -/
  full : v.Takes args → fs.length = maxDepth →
    ∀ r w, e.Ends t r w ↔ r = .error (.error ⟨.stackOverflow, some e.span⟩) ∧ w = u
  /-- Where there is room, the body is run. -/
  room : ∀ id f, v = .function id f → f.params.length = args.length → fs.length < maxDepth →
    s.Nests source (f :: fs) (.body f.body) (f.entered args u)
  /-- Natives, classes and whatever cannot be called so are not counted. -/
  other : ¬ v.Takes args → ∃ r w, (∀ r' w', e.Ends t r' w' ↔ r' = r ∧ w' = w) ∧
    w.depth = fs.length ∧ ∀ err, r = .error (.error err) → err.fault ≠ .stackOverflow

namespace Session

variable {s : Session} {source : String} {fs : List Function}

theorem Nests.callCounted {e : Expr} {t u : State} {v : Value} {args : List Value}
    (h : s.Nests source fs (.node (.expr e)) t) (hs : s.state.depth = 0)
    (hcalls : e.Calls t v args u) : s.CallCounted source fs e t v args u := by
  obtain ⟨hdepth, hle⟩ := h.depth hs
  have hu : u.depth = fs.length := hcalls.depth.trans hdepth
  have hfull : maxDepth ≤ u.depth ↔ fs.length = maxDepth := by omega
  refine ⟨hu, ?_, fun htakes hlength => hcalls.ends_of_full htakes (hfull.2 hlength), ?_,
    fun htakes => ?_⟩
  · rw [callValue_eq_overflow_iff, hfull]
  · rintro id f rfl hlength hlt
    obtain ⟨program, hread, h⟩ := h
    obtain ⟨m, callee, es, t', rfl, hf, hes⟩ := hcalls
    exact ⟨program, hread, (h.step rfl (.call hf hes hlength (hu ▸ hlt))).enter⟩
  · obtain ⟨r, w, hends, hfault⟩ := hcalls.ends_of_not_takes htakes
    exact ⟨r, w, hends, ((hends r w).2 ⟨rfl, rfl⟩).depth.trans hdepth, hfault⟩

/-- A run that fails for want of room has come to a call for which there is none, and has changed
nothing since. -/
theorem Ends.exists_full {o : Outcome} (h : s.Ends source o) (hs : s.state.depth = 0)
    {e : RuntimeError} (hproblem : o.problem = some (.running e)) (he : e.fault = .stackOverflow) :
    ∃ fs call t v args u, s.Nests source fs (.node (.expr call)) t ∧ call.Calls t v args u ∧
      v.Takes args ∧ fs.length = maxDepth ∧ o.session.env.frames = u.env.frames ∧
      o.session.state.objects = u.objects ∧ o.printed = u.output := by
  obtain ⟨fuel, hrun⟩ := h
  rcases run_eq_some_iff.1 hrun with ⟨p, hread, rfl⟩ | ⟨program, hread, hends⟩
  · cases hproblem
    exact absurd hread read_ne_running
  · obtain ⟨r, w, hsteps, -, rfl⟩ := runProgram_eq_some_iff.1 hends
    rw [state_read] at hsteps
    match r, hproblem with
    | .error (.error e'), hproblem =>
      cases hproblem
      have hbegin : ({ s.state with output := "", program } : State).depth = 0 := hs
      obtain ⟨fs, b, t, hfs, call, v, args, u, rfl, hcalls, htakes, hfull, hmemory⟩ :=
        runStatements_overflows (callsOverflow fuel 0) program.statements hbegin _ w hsteps he
      have hnests : s.Nests source fs (.node (.expr call)) t := ⟨program, hread, hfs⟩
      obtain ⟨hdepth, hle⟩ := hnests.depth hs
      have hu : u.depth = fs.length := hcalls.depth.trans hdepth
      simp only [State.memory, Memory.mk.injEq] at hmemory
      exact ⟨fs, call, t, v, args, u, hnests, hcalls, htakes, by omega, hmemory.1, hmemory.2.1,
        hmemory.2.2.2⟩

end Session

/-- **The count of running bodies is right at all times.** In every session, no body is running
between the sources. At every point of the run of a source, the count is the number of the bodies
that have been entered and not left, which is never above the limit, and it is so again after every
expression and every statement, whether that failed or not. A call of a function that takes the
arguments fails for want of room exactly where the limit is reached, and then nothing has changed;
no other call fails so or is counted. If a run fails so, it has come to such a call, and frames,
objects and output are left as they were there. -/
theorem call_depth {clock : Clock} {s : Session} (hs : (Session.start clock).Reaches s) :
    s.state.depth = 0 ∧
    (∀ source task t, s.Visits source task t ↔ ∃ fs, s.Nests source fs task t) ∧
    (∀ source fs task t, s.Nests source fs task t →
      t.depth = fs.length ∧ fs.length ≤ maxDepth ∧
      (∀ e r u, task = .node (.expr e) → e.Ends t r u → u.depth = fs.length) ∧
      (∀ stmt r u, task = .node (.stmt stmt) → stmt.Ends t r u → u.depth = fs.length) ∧
      ∀ e v args u, task = .node (.expr e) → e.Calls t v args u →
        s.CallCounted source fs e t v args u) ∧
    ∀ source o e, s.Ends source o → o.problem = some (.running e) → e.fault = .stackOverflow →
      ∃ fs call t v args u, s.Nests source fs (.node (.expr call)) t ∧ call.Calls t v args u ∧
        v.Takes args ∧ fs.length = maxDepth ∧ o.session.env.frames = u.env.frames ∧
        o.session.state.objects = u.objects ∧ o.printed = u.output := by
  have hdepth : s.state.depth = 0 := hs.scope_depth.2
  refine ⟨hdepth, fun source task t => Session.visits_iff, fun source fs task t h => ?_,
    fun source o e h hproblem he => h.exists_full hdepth hproblem he⟩
  obtain ⟨ht, hle⟩ := h.depth hdepth
  refine ⟨ht, hle, ?_, ?_, ?_⟩
  · rintro e r u rfl hends
    exact hends.depth.trans ht
  · rintro stmt r u rfl hends
    exact hends.depth.trans ht
  · rintro e v args u rfl hcalls
    exact h.callCounted hdepth hcalls

/-- A function that is called where it is written, in whose body a call fails. -/
def nestedSource : String := "(fun () \x7b nil(); \x7d)();"

/-- The body of the function that the only statement of a program writes and calls. -/
def Program.writtenBody? (p : Program) : Option (List Stmt) :=
  match p.statements with
  | [.expression _ (.call _ (.group _ (.lambda _ [] body)) [])] => some body
  | _ => none

theorem Program.statements_of_writtenBody? {p : Program} {body : List Stmt}
    (h : p.writtenBody? = some body) : ∃ m m₁ m₂ m₃, p.statements =
      [.expression m (.call m₁ (.group m₂ (.lambda m₃ [] body)) [])] := by
  unfold writtenBody? at h
  split at h
  · next m m₁ m₂ m₃ body' hstatements =>
    cases h
    exact ⟨m, m₁, m₂, m₃, hstatements⟩
  · cases h

/-- In the function one body is running, and after the failure there is none. -/
theorem call_depth_nested : ∃ (o : Outcome) (f : Function) (t : State),
    (Session.start 0).Ends nestedSource o ∧ o.problem.isSome ∧ o.session.state.depth = 0 ∧
    (Session.start 0).Nests nestedSource [f] (.body f.body) t ∧ t.depth = 1 := by
  have hrun : ((Session.start 0).run 9 nestedSource).map (·.problem.isSome) = some true := by
    decide +kernel
  have hwritten : ∃ program body, ((Session.start 0).read nestedSource).1 = .ok program ∧
      program.writtenBody? = some body := by
    have hsome : (((Session.start 0).read nestedSource).1.toOption.bind
        Program.writtenBody?).isSome = true := by
      decide +kernel
    obtain ⟨body, hbody⟩ := Option.isSome_iff_exists.1 hsome
    obtain ⟨program, hread, hbody⟩ := Option.bind_eq_some_iff.1 hbody
    cases hresult : ((Session.start 0).read nestedSource).1 with
    | error e =>
      rw [hresult] at hread
      cases hread
    | ok p =>
      rw [hresult] at hread
      cases hread
      exact ⟨program, body, rfl, hbody⟩
  obtain ⟨o, ho, hproblem⟩ := Option.map_eq_some_iff.1 hrun
  obtain ⟨program, body, hread, hbody⟩ := hwritten
  obtain ⟨m, m₁, m₂, m₃, hstatements⟩ := Program.statements_of_writtenBody? hbody
  let start : State := { (Session.start 0).state with output := "", program }
  let made : State := { start with nextId := start.nextId + 1 }
  let f : Function := ⟨none, [], body, start.env.scope, program⟩
  have hnests : (Session.start 0).Nests nestedSource [f] (.body f.body) (f.entered [] made) := by
    have hcallee : (Expr.group m₂ (.lambda m₃ [] body)).Ends start
        (.ok (.function start.nextId f)) made := ⟨nofun, 0, rfl⟩
    have hargs : EndEach [] made (.ok []) made := ⟨nofun, 0, rfl⟩
    refine ⟨program, hread, ?_⟩
    rw [hstatements]
    let written : Expr := .call m₁ (.group m₂ (.lambda m₃ [] body)) []
    have hstmt : (Task.top [.expression m written]).Nests start []
        (.node (.stmt (.expression m written))) start := .step .here rfl .topStatement
    have hwritten : (Task.top [.expression m written]).Nests start []
        (.node (.expr written)) start := hstmt.step rfl (.first rfl)
    have hroom : made.depth < maxDepth := Nat.zero_lt_succ _
    exact (hwritten.step rfl (.call hcallee hargs rfl hroom)).enter
  have hstart : (Session.start 0).Reaches (Session.start 0) := .refl
  exact ⟨o, f, _, ⟨9, ho⟩, hproblem, (call_depth (hstart.run ⟨9, ho⟩)).1, hnests,
    ((call_depth hstart).2.2.1 _ _ _ _ hnests).1⟩

end Lox
