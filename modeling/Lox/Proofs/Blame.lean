import Lox.Proofs.Contract
import Lox.Proofs.Functions
import Lox.Proofs.Nodes
import Lox.Proofs.Operators

/-!
# Errors are blamed on nodes of the code that is run

An error gets the span of the smallest expression around it. So it is blamed on a node of the code
that runs, and on one where such a fault may arise, whatever functions are called.

* `Node.Raises`: the faults that may arise at a node itself;
* `tracking`: the contract that all functions in a state have a property, and errors are blamed on
  certain nodes;
* `Action.Tracks`, with a rule for each way to build actions;
* `eval_tracks`, `exec_tracks`, `tracking_sound`, `runStatements_tracks`.
-/

namespace Lox

/-! ### Where faults arise -/

/-- The faults of a call, one of which is that the body that is called is left by a `break`. -/
def Fault.OfCall : Fault → Prop
  | notCallable _ | arityMismatch _ _ | notANumber _ _ | stackOverflow | breakOutsideLoop => True
  | _ => False

theorem Fault.ofCall_of_raises {builtin : Builtin} {fault : Fault} (h : builtin.Raises fault) :
    fault.OfCall := by
  cases fault with
  | notANumber | arityMismatch => trivial
  | _ => cases h

/-- The faults that may arise at a node, and not at one below it. -/
def Node.Raises : Node → Fault → Prop
  | .expr (.unary _ op _), fault => op.Raises fault
  | .expr (.binary _ _ op _), fault => op.Raises fault
  | .expr (.var _ x), fault => fault = .undefinedVariable x
  | .expr (.assign _ x _), fault => fault = .undefinedVariable x
  | .expr (.call _ _ _), fault => fault.OfCall
  | .expr (.get _ _ x), fault => fault = .undefinedProperty x ∨ ∃ t, fault = .notAnInstance t
  | .expr (.set _ _ _ _), fault => ∃ t, fault = .notAnInstance t
  | .stmt _, fault => fault = .returnOutsideFunction ∨ fault = .breakOutsideLoop
  | .expr _, _ => False

/-- An error that is blamed on one of certain nodes, where it may arise. -/
def RuntimeError.At (H : Node → Prop) (e : RuntimeError) : Prop :=
  ∃ n, H n ∧ n.Raises e.fault ∧ e.span = some n.span

/-! ### What code leaves behind -/

variable {P : Function → Prop} {H : Node → Prop} {p : Program} {α β : Type}

/-- How code of a program ends: with a result of a sort, or with an error that is blamed on certain
nodes, or is one of certain faults and not blamed yet. The functions of the state have a property,
and the program is still current. -/
def Ended (P : Function → Prop) (H : Node → Prop) (F : Fault → Prop) (R : α → Prop) (p : Program)
    (r : Except Stop α) (t : State) : Prop :=
  match r with
  | .ok a => R a ∧ t.Each P ∧ t.program = p
  | .error (.error e) => (e.At H ∨ e.span = none ∧ F e.fault) ∧ t.Each P ∧ t.program = p
  | .error .outOfFuel => True

/-- Functions with a property are called with such functions, and leave such ones behind. The errors
of their bodies are blamed on certain nodes, but for a `break` that leaves the body. -/
def tracking (P : Function → Prop) (H : Node → Prop) : Contract where
  pre f args s := P f ∧ (∀ v ∈ args, v.Each P) ∧ s.Each P
  post _ _ s r t := Ended P H (· = .breakOutsideLoop) (Value.Each P) s.program r t

/-- As code of a program, an action ends as `Ended` says. -/
def Action.Tracks (P : Function → Prop) (H : Node → Prop) (F : Fault → Prop) (R : α → Prop)
    (p : Program) (x : Action α) : Prop :=
  ∀ s, s.Each P → s.program = p → (x s).Meets (tracking P H) (Ended P H F R p)

/-! ### Rules -/

theorem pure_tracks {F : Fault → Prop} {R : α → Prop} {a : α} (h : R a) :
    (pure a : Action α).Tracks P H F R p := fun _ hs hp => ⟨h, hs, hp⟩

theorem fail_tracks {F : Fault → Prop} {R : α → Prop} {fault : Fault} (h : F fault) :
    (fail fault : Action α).Tracks P H F R p := fun _ hs hp => ⟨.inr ⟨rfl, h⟩, hs, hp⟩

/-- An error that is blamed from the start. -/
theorem stopWith_tracks {F : Fault → Prop} {R : α → Prop} {e : RuntimeError} (h : e.At H) :
    (stopWith (.error e) : Action α).Tracks P H F R p := fun _ hs hp => ⟨.inl h, hs, hp⟩

theorem ofExcept_tracks {F : Fault → Prop} {r : Except Fault Value} (h : Returns F r) :
    (ofExcept r).Tracks P H F (Value.Each P) p := by
  cases r with
  | ok v => exact pure_tracks (Value.Plain.each h.1)
  | error fault => exact fail_tracks h

namespace Action.Tracks

variable {F G : Fault → Prop} {R : α → Prop} {Q : β → Prop}

theorem bind {x : Action α} {g : α → Action β} (hx : x.Tracks P H F R p)
    (hg : ∀ a, R a → (g a).Tracks P H F Q p) : (x >>= g).Tracks P H F Q p := by
  intro s hs hp
  rw [bind_apply]
  refine (hx s hs hp).bind (fun a t ht => hg a ht.1 t ht.2.1 ht.2.2) fun e t ht => ?_
  cases e with
  | error e => exact ht
  | outOfFuel => trivial

/-- The errors of an action that are not blamed yet are blamed on a node where they may arise. -/
theorem blaming {x : Action α} (hx : x.Tracks P H F R p) {n : Node} (hn : H n)
    (hF : ∀ fault, F fault → n.Raises fault) : (blaming n.span x).Tracks P H G R p := by
  intro s hs hp
  refine (hx s hs hp).adjust (fun a t ht => ht) fun e t ht => ?_
  cases e with
  | outOfFuel => trivial
  | error e =>
    obtain ⟨herr, hstate⟩ := ht
    refine ⟨.inl ?_, hstate⟩
    rcases herr with ⟨m, hm, hraises, hspan⟩ | ⟨hspan, hfault⟩
    · exact ⟨m, hm, hraises, by simp [RuntimeError.blame, hspan]⟩
    · exact ⟨n, hn, hF _ hfault, by simp [RuntimeError.blame, hspan]⟩

/-- The end of an action in a state from which something is put back. -/
theorem adjust {x : Action α} {s : State} {q : Program} {after : State → State}
    (hx : (x s).Meets (tracking P H) (Ended P H F R q))
    (hafter : ∀ t, t.Each P → t.program = q → (after t).Each P ∧ (after t).program = p) :
    ((x s).adjust id after).Meets (tracking P H) (Ended P H F R p) := by
  refine hx.adjust (fun a t ht => ⟨ht.1, hafter t ht.2.1 ht.2.2⟩) fun e t ht => ?_
  cases e with
  | error e => exact ⟨ht.1, hafter t ht.2.1 ht.2.2⟩
  | outOfFuel => trivial

theorem within {x : Action α} (hx : x.Tracks P H F R p) {enter : Environment → Environment}
    (henter : ∀ env, Holds P env.frames → Holds P (enter env).frames) :
    (within enter x).Tracks P H F R p := fun _ hs hp =>
  adjust (hx _ ⟨henter _ hs.frames, hs.objects⟩ hp) fun _ ht hp => ⟨⟨ht.frames, ht.objects⟩, hp⟩

theorem counted {x : Action α} (hx : x.Tracks P H F R p) : (counted x).Tracks P H F R p :=
  fun _ hs hp =>
    adjust (hx _ ⟨hs.frames, hs.objects⟩ hp) fun _ ht hp => ⟨⟨ht.frames, ht.objects⟩, hp⟩

/-- Code of another program is run as such, and then the program before is current again. -/
theorem inProgram {q : Program} {x : Action α} (hx : x.Tracks P H F R q) :
    (inProgram q x).Tracks P H F R p := fun _ hs hp =>
  adjust (hx _ ⟨hs.frames, hs.objects⟩ rfl) fun _ ht _ => ⟨⟨ht.frames, ht.objects⟩, hp⟩

end Action.Tracks

/-! ### Names, objects and calls -/

section Actions

variable {F : Fault → Prop}

theorem readName_tracks {name : String} (h : F (.undefinedVariable name)) :
    (readName name).Tracks P H F (Value.Each P) p := by
  intro s hs hp
  rw [readName]
  split
  · next v hv => exact ⟨Environment.each_lookup hs.frames hv, hs, hp⟩
  · exact fail_tracks h s hs hp

theorem defineName_tracks (name : String) {value : Value} (h : value.Each P) :
    (defineName name value).Tracks P H F (fun _ => True) p := fun _ hs hp =>
  ⟨trivial, ⟨Environment.holds_define hs.frames name h, hs.objects⟩, hp⟩

theorem assignName_tracks {name : String} (hF : F (.undefinedVariable name)) {value : Value}
    (h : value.Each P) : (assignName name value).Tracks P H F (fun _ => True) p := by
  intro s hs hp
  rw [assignName]
  split
  · exact ⟨trivial, ⟨hs.frames.insert _ name h, hs.objects⟩, hp⟩
  · exact fail_tracks hF s hs hp

theorem printLine_tracks (text : String) :
    (printLine text).Tracks P H F (fun _ => True) p :=
  fun _ hs hp => ⟨trivial, ⟨hs.frames, hs.objects⟩, hp⟩

theorem newId_tracks : newId.Tracks P H F (fun _ => True) p :=
  fun _ hs hp => ⟨trivial, ⟨hs.frames, hs.objects⟩, hp⟩

theorem newFunction_tracks {name : Option String} {params : List String} {body : List Stmt}
    (h : ∀ scope, P ⟨name, params, body, scope, p⟩) :
    (newFunction name params body).Tracks P H F (Value.Each P) p :=
  newId_tracks.bind fun _ _ s hs hp => ⟨by rw [hp]; exact h s.env.scope, hs, hp⟩

theorem newClass_tracks (name : String) : (newClass name).Tracks P H F (Value.Each P) p :=
  newId_tracks.bind fun _ _ => pure_tracks trivial

theorem newObject_tracks (name : String) : (newObject name).Tracks P H F (Value.Each P) p :=
  fun _ hs hp => ⟨trivial, ⟨hs.frames, hs.objects.push⟩, hp⟩

theorem objectId_tracks (hF : ∀ t, F (.notAnInstance t)) (v : Value) :
    (objectId v).Tracks P H F (fun _ => True) p := by
  unfold objectId
  split
  · exact pure_tracks trivial
  · exact fail_tracks (hF _)

theorem readField_tracks (id : Nat) {name : String} (hF : F (.undefinedProperty name)) :
    (readField id name).Tracks P H F (Value.Each P) p := by
  intro s hs hp
  rw [readField]
  split
  · next v hv => exact ⟨hs.objects id name v hv, hs, hp⟩
  · exact fail_tracks hF s hs hp

theorem writeField_tracks (id : Nat) (name : String) {value : Value} (h : value.Each P) :
    (writeField id name value).Tracks P H F (fun _ => True) p := fun _ hs hp =>
  ⟨trivial, ⟨hs.frames, hs.objects.insert id name h⟩, hp⟩

/-- A call ends as the contract says. -/
theorem requestCall_tracks {f : Function} {args : List Value} (hf : P f)
    (hargs : ∀ v ∈ args, v.Each P) :
    (requestCall f args).Tracks P H Fault.OfCall (Value.Each P) p := by
  intro s hs hp
  rw [requestCall]
  split
  · exact fail_tracks trivial s hs hp
  · refine ⟨⟨hf, hargs, hs⟩, fun r t hr => Step.meets_ofReply ?_⟩
    rcases r with (e | _) | v
    · obtain ⟨herr, hstate⟩ := hr
      refine ⟨herr.imp_right fun h => ⟨h.1, ?_⟩, hp ▸ hstate⟩
      rw [h.2]
      trivial
    · trivial
    · exact hp ▸ hr

theorem callNative_tracks (f : Native) (args : List Value) :
    (callNative f args).Tracks P H Fault.OfCall (Value.Each P) p :=
  fun s hs hp => ofExcept_tracks
    ((f.builtin.returns_apply s.clock.reading args).mono fun _ => Fault.ofCall_of_raises)
    { s with clock := s.clock.after f.builtin } ⟨hs.frames, hs.objects⟩ hp

theorem callValue_tracks {callee : Value} (hcallee : callee.Each P) {args : List Value}
    (hargs : ∀ v ∈ args, v.Each P) :
    (callValue callee args).Tracks P H Fault.OfCall (Value.Each P) p := by
  unfold callValue
  split
  · exact fail_tracks trivial
  · split
    · exact fail_tracks trivial
    · split
      · exact requestCall_tracks hcallee hargs
      · exact callNative_tracks _ _
      · exact newObject_tracks _
      · exact fail_tracks trivial

end Actions

/-! ### Expressions and statements -/

/-- Nodes at which functions with a property are made, and on whose expressions errors may be
blamed. -/
def Fits (P : Function → Prop) (H : Node → Prop) (p : Program) (nodes : List Node) : Prop :=
  ∀ n ∈ nodes, (∀ e, n = .expr e → H n) ∧ n.Makes P p

theorem Fits.cons {n : Node} {ns : List Node} (h : Fits P H p (n :: ns)) :
    n.Makes P p ∧ Fits P H p ns :=
  ⟨(h n (.head _)).2, (List.forall_mem_cons.1 h).2⟩

theorem Fits.cons_expr {e : Expr} {ns : List Node} (h : Fits P H p (.expr e :: ns)) :
    (H (.expr e) ∧ (Node.expr e).Makes P p) ∧ Fits P H p ns :=
  ⟨⟨(h _ (.head _)).1 e rfl, h.cons.1⟩, h.cons.2⟩

theorem Fits.append {ms ns : List Node} (h : Fits P H p (ms ++ ns)) :
    Fits P H p ms ∧ Fits P H p ns :=
  List.forall_mem_append.1 h

mutual

theorem eval_tracks : ∀ (e : Expr) {F : Fault → Prop}, Fits P H p e.nodes →
    (eval e).Tracks P H F (Value.Each P) p
  | .literal _ v, _, _ => by
    rw [eval]
    exact pure_tracks v.plain_value.each
  | .group _ e, F, h => by
    obtain ⟨⟨hn, -⟩, he⟩ := h.cons_expr
    rw [eval]
    -- the operand has blamed its errors itself, and the parentheses have none of their own
    exact (eval_tracks e (F := fun _ => False) he).blaming hn nofun
  | .unary _ op e, _, h => by
    obtain ⟨⟨hn, -⟩, he⟩ := h.cons_expr
    rw [eval]
    exact ((eval_tracks e he).bind fun v _ => ofExcept_tracks (op.returns_apply v)).blaming hn
      fun _ hf => hf
  | .binary _ l op r, _, h => by
    obtain ⟨⟨hn, -⟩, hlr⟩ := h.cons_expr
    obtain ⟨hl, hr⟩ := hlr.append
    rw [eval]
    exact ((eval_tracks l hl).bind fun v _ => (eval_tracks r hr).bind fun w _ =>
      ofExcept_tracks (op.returns_apply v w)).blaming hn fun _ hf => hf
  | .logical _ l op r, _, h => by
    obtain ⟨⟨hn, -⟩, hlr⟩ := h.cons_expr
    obtain ⟨hl, hr⟩ := hlr.append
    rw [eval]
    refine ((eval_tracks l (F := fun _ => False) hl).bind fun left hleft => ?_).blaming hn nofun
    split
    · exact pure_tracks hleft
    · exact eval_tracks r hr
  | .var _ x, _, h => by
    obtain ⟨⟨hn, -⟩, -⟩ := h.cons_expr
    rw [eval]
    exact (readName_tracks (F := (· = .undefinedVariable x)) rfl).blaming hn fun _ hf => hf
  | .assign _ x e, _, h => by
    obtain ⟨⟨hn, -⟩, he⟩ := h.cons_expr
    rw [eval]
    exact ((eval_tracks e he).bind fun v hv =>
      (assignName_tracks (F := (· = .undefinedVariable x)) rfl hv).bind fun _ _ =>
        pure_tracks hv).blaming hn fun _ hf => hf
  | .call _ f es, _, h => by
    obtain ⟨⟨hn, -⟩, hfes⟩ := h.cons_expr
    obtain ⟨hf, hes⟩ := hfes.append
    rw [eval]
    exact ((eval_tracks f hf).bind fun callee hcallee =>
      (evalAll_tracks es hes).bind fun args hargs =>
        callValue_tracks hcallee hargs).blaming hn fun _ hf => hf
  | .lambda _ params body, _, h => by
    obtain ⟨⟨-, hmakes⟩, -⟩ := h.cons_expr
    rw [eval]
    exact newFunction_tracks hmakes
  | .get _ e x, _, h => by
    obtain ⟨⟨hn, -⟩, he⟩ := h.cons_expr
    rw [eval]
    exact ((eval_tracks e he).bind fun v _ =>
      (objectId_tracks (fun t => .inr ⟨t, rfl⟩) v).bind fun id _ =>
        readField_tracks id (F := fun fault => fault = .undefinedProperty x ∨
          ∃ t, fault = .notAnInstance t) (.inl rfl)).blaming hn fun _ hf => hf
  | .set _ e x v, _, h => by
    obtain ⟨⟨hn, -⟩, hev⟩ := h.cons_expr
    obtain ⟨he, hv⟩ := hev.append
    rw [eval]
    exact ((eval_tracks e he).bind fun o _ =>
      (objectId_tracks (F := fun fault => ∃ t, fault = .notAnInstance t) (fun t => ⟨t, rfl⟩) o).bind
        fun id _ => (eval_tracks v hv).bind fun value hvalue =>
          (writeField_tracks id x hvalue).bind fun _ _ => pure_tracks hvalue).blaming hn
            fun _ hf => hf

theorem evalAll_tracks : ∀ (es : List Expr) {F : Fault → Prop}, Fits P H p (nodesEach es) →
    (evalAll es).Tracks P H F (fun vs => ∀ v ∈ vs, v.Each P) p
  | [], _, _ => by
    rw [evalAll]
    exact pure_tracks (by simp)
  | e :: es, _, h => by
    obtain ⟨he, hes⟩ := Fits.append h
    rw [evalAll]
    exact (eval_tracks e he).bind fun v hv => (evalAll_tracks es hes).bind fun vs hvs =>
      pure_tracks (List.forall_mem_cons.2 ⟨hv, hvs⟩)

end

/-- A function that returns a value does not make up functions. -/
def Flow.Each (P : Function → Prop) : Flow → Prop
  | result v => v.Each P
  | _ => True

variable {F : Fault → Prop}

theorem evalOption_tracks {e : Option Expr} (h : Fits P H p (nodesOption e)) :
    (evalOption e).Tracks P H F (Value.Each P) p := by
  cases e with
  | none => exact pure_tracks trivial
  | some e => exact eval_tracks e h

theorem repeatWhile_tracks {condition : Action Value} {body : Action Flow}
    (hc : condition.Tracks P H F (Value.Each P) p) (hb : body.Tracks P H F (Flow.Each P) p)
    (n : Nat) : (repeatWhile condition body n).Tracks P H F (Flow.Each P) p := by
  induction n with
  | zero => exact fun _ _ _ => trivial
  | succ n ih =>
    rw [repeatWhile]
    refine hc.bind fun v _ => ?_
    split
    · refine hb.bind fun flow hflow => ?_
      cases flow with
      | next => exact ih
      | leave => exact pure_tracks trivial
      | result v => exact pure_tracks hflow
    · exact pure_tracks trivial

mutual

theorem exec_tracks (fuel : Nat) : ∀ s : Stmt, Fits P H p s.nodes →
    (exec fuel s).Tracks P H F (Flow.Each P) p
  | .expression _ e, h => by
    rw [exec]
    exact (eval_tracks e h.cons.2).bind fun _ _ => pure_tracks trivial
  | .print _ e, h => by
    rw [exec]
    exact (eval_tracks e h.cons.2).bind fun _ _ => (printLine_tracks _).bind fun _ _ =>
      pure_tracks trivial
  | .varDecl _ x e, h => by
    rw [exec]
    exact (evalOption_tracks h.cons.2).bind fun v hv => (defineName_tracks x hv).bind fun _ _ =>
      pure_tracks trivial
  | .block _ body, h => by
    rw [exec]
    exact (execAll_tracks fuel body h.cons.2).within fun _ henv => henv.push
  | .ifElse _ c t e, h => by
    obtain ⟨hct, he⟩ := h.cons.2.append
    obtain ⟨hc, ht⟩ := hct.append
    rw [exec]
    refine (eval_tracks c hc).bind fun v _ => ?_
    split
    · exact exec_tracks fuel t ht
    · exact execOption_tracks fuel e he
  | .whileDo _ c b, h => by
    obtain ⟨hc, hb⟩ := h.cons.2.append
    rw [exec]
    exact repeatWhile_tracks (eval_tracks c hc) (exec_tracks fuel b hb) fuel
  | .funDecl _ x params body, h => by
    rw [exec]
    exact (newFunction_tracks h.cons.1).bind fun v hv => (defineName_tracks x hv).bind
      fun _ _ => pure_tracks trivial
  | .returns _ e, h => by
    rw [exec]
    exact (evalOption_tracks h.cons.2).bind fun v hv => pure_tracks hv
  | .breaks _ e, h => by
    rw [exec]
    exact (evalOption_tracks h.cons.2).bind fun _ _ => pure_tracks trivial
  | .classDecl _ x, _ => by
    rw [exec]
    exact (newClass_tracks x).bind fun v hv => (defineName_tracks x hv).bind fun _ _ =>
      pure_tracks trivial

theorem execOption_tracks (fuel : Nat) : ∀ s : Option Stmt, Fits P H p (nodesElse s) →
    (execOption fuel s).Tracks P H F (Flow.Each P) p
  | none, _ => by
    rw [execOption]
    exact pure_tracks trivial
  | some s, h => by
    rw [execOption]
    exact exec_tracks fuel s h

theorem execAll_tracks (fuel : Nat) : ∀ ss : List Stmt, Fits P H p (nodesAll ss) →
    (execAll fuel ss).Tracks P H F (Flow.Each P) p
  | [], _ => by
    rw [execAll]
    exact pure_tracks trivial
  | s :: rest, h => by
    obtain ⟨hs, hrest⟩ := Fits.append h
    rw [execAll]
    refine (exec_tracks fuel s hs).bind fun flow hflow => ?_
    cases flow with
    | next => exact execAll_tracks fuel rest hrest
    | leave => exact pure_tracks trivial
    | result v => exact pure_tracks hflow

end

/-! ### Calls and programs -/

theorem Function.apply_tracks (fuel : Nat) {f : Function} {args : List Value}
    (hbody : Fits P H f.program (nodesAll f.body)) (hargs : ∀ v ∈ args, v.Each P) :
    (f.apply fuel args).Tracks P H (· = .breakOutsideLoop) (Value.Each P) p := by
  refine (((execAll_tracks fuel f.body hbody).inProgram.within fun _ henv =>
    f.holds_enter hargs henv).counted).bind fun flow hflow => ?_
  cases flow with
  | next => exact pure_tracks trivial
  | result v => exact pure_tracks hflow
  | leave => exact fail_tracks rfl

/-- When functions with the property make such functions, the contract is sound for those with
bodies on whose expressions errors may be blamed. -/
theorem tracking_sound (fuel : Nat)
    (hmakes : ∀ f, P f → ∀ n ∈ nodesAll f.body, n.Makes P f.program) :
    (tracking P H).SoundFor (fun f => P f → ∀ e, .expr e ∈ nodesAll f.body → H (.expr e)) fuel where
  body f _ s hf hpre := by
    refine f.apply_tracks fuel (fun n hn => ⟨?_, hmakes f hpre.1 n hn⟩) hpre.2.1 s hpre.2.2 rfl
    rintro e rfl
    exact hf hpre.1 e hn
  giveUp _ _ _ _ := trivial

/-- Errors may be blamed on the statements at the top too, but not on those below. -/
theorem runStatements_tracks (fuel : Nat) {ss : List Stmt} (h : Fits P H p (nodesAll ss))
    (htop : ∀ s ∈ ss, H (.stmt s)) : (runStatements fuel ss).Tracks P H F (fun _ => True) p := by
  induction ss with
  | nil => exact pure_tracks trivial
  | cons s rest ih =>
    obtain ⟨hs, hrest⟩ := Fits.append h
    obtain ⟨hn, htop⟩ := List.forall_mem_cons.1 htop
    rw [runStatements]
    refine (exec_tracks fuel s hs).bind fun flow _ => ?_
    cases flow with
    | next => exact ih hrest htop
    | leave => exact stopWith_tracks ⟨.stmt s, hn, .inr rfl, rfl⟩
    | result v => exact stopWith_tracks ⟨.stmt s, hn, .inl rfl, rfl⟩

/-- How statements end that are run with all their calls. -/
theorem runStatements_ended {fuel : Nat} {ss : List Stmt} {s t : State} {r : Except Stop Unit}
    (hmakes : ∀ f, P f → ∀ n ∈ nodesAll f.body, n.Makes P f.program) (hs : s.Each P)
    (hss : Fits P H s.program (nodesAll ss)) (htop : ∀ s ∈ ss, H (.stmt s))
    (hcalled : ∀ f ∈ (runStatements fuel ss s).called fuel, P f →
      ∀ e, .expr e ∈ nodesAll f.body → H (.expr e))
    (h : (runStatements fuel ss).run fuel s = (r, t)) :
    Ended P H (fun _ => False) (fun _ => True) s.program r t := by
  have htracks := runStatements_tracks (F := fun _ => False) fuel hss htop s hs rfl
  have hrun := (tracking_sound fuel hmakes).run hcalled htracks
  rw [Action.run] at h
  rwa [h] at hrun

end Lox
