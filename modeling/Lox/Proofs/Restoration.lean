import Lox.Proofs.Contract
import Lox.Session

/-!
# Every exit restores the place

A block changes the current scope, and a call changes the scope, the current program and the
count of running bodies. However they are left, by their end, by `break` or `return` or by an error
raised at any depth, all three are afterwards what they were before.

* `Place`, `State.place`: what is restored;
* `Action.Restores`: an action that restores the place, with a rule for each way to build
  actions;
* `place_restored`: expressions, statements and sessions.
-/

namespace Lox

/-- Where a program is: the current scope, the program that the running code is part of, and how
many function bodies are running. -/
structure Place where
  scope : Scope
  program : Program
  depth : Nat

/-- The place of a state. -/
def State.place (s : State) : Place := ⟨s.env.scope, s.program, s.depth⟩

/-- A call leaves the place as it was, unless it ran out of fuel. -/
def restoring : Contract where
  pre _ _ _ := True
  post _ _ s r t := r ≠ .error .outOfFuel → t.place = s.place

/-- Wherever an action starts, it ends in the same place, unless it runs out of fuel. -/
def Action.Restores {α : Type} (x : Action α) : Prop :=
  ∀ s, (x s).Meets restoring fun r t => r ≠ .error .outOfFuel → t.place = s.place

variable {α β : Type}

/-! ### Rules -/

theorem pure_restores (a : α) : (pure a : Action α).Restores := fun _ _ => rfl

theorem stopWith_restores (reason : Stop) : (stopWith reason : Action α).Restores :=
  fun _ _ => rfl

theorem fail_restores (fault : Fault) : (fail fault : Action α).Restores := stopWith_restores _

theorem ofExcept_restores (r : Except Fault Value) : (ofExcept r).Restores := by
  cases r with
  | ok v => exact pure_restores v
  | error fault => exact fail_restores fault

namespace Action.Restores

theorem bind {x : Action α} {g : α → Action β} (hx : x.Restores) (hg : ∀ a, (g a).Restores) :
    (x >>= g).Restores := by
  intro s
  rw [bind_apply]
  refine (hx s).bind (fun a t ht => (hg a t).mono fun r u hu hr => ?_) fun e t ht he => ?_
  · exact (hu hr).trans (ht (by simp))
  · exact ht (by simpa using he)

theorem blaming {x : Action α} (hx : x.Restores) (span : Span) : (blaming span x).Restores := by
  intro s
  refine (hx s).adjust (fun a t ht => ht) fun e t ht he => ht ?_
  rintro ⟨⟩
  exact he rfl

/-- The scope that an action is run in does not matter, as the scope before comes back. -/
theorem within {x : Action α} (hx : x.Restores) (enter : Environment → Environment) :
    (within enter x).Restores := by
  intro s
  have put_back (r : Except Stop α) (t : State)
      (ht : r ≠ .error .outOfFuel → t.place = State.place { s with env := enter s.env })
      (hr : r ≠ .error .outOfFuel) :
      State.place { t with env := t.env.enter s.env.scope } = s.place := by
    have h := ht hr
    simp only [State.place, Environment.enter, Place.mk.injEq] at h ⊢
    exact ⟨trivial, h.2⟩
  exact (hx _).adjust (fun a => put_back (.ok a)) fun e => put_back (.error e)

theorem counted {x : Action α} (hx : x.Restores) : (counted x).Restores := by
  intro s
  have count_down (r : Except Stop α) (t : State)
      (ht : r ≠ .error .outOfFuel → t.place = State.place { s with depth := s.depth + 1 })
      (hr : r ≠ .error .outOfFuel) :
      State.place { t with depth := t.depth - 1 } = s.place := by
    have h := ht hr
    simp only [State.place, Place.mk.injEq] at h ⊢
    exact ⟨h.1, h.2.1, by omega⟩
  exact (hx _).adjust (fun a => count_down (.ok a)) fun e => count_down (.error e)

theorem inProgram {x : Action α} (hx : x.Restores) (program : Program) :
    (inProgram program x).Restores := by
  intro s
  have put_back (r : Except Stop α) (t : State)
      (ht : r ≠ .error .outOfFuel → t.place = State.place { s with program })
      (hr : r ≠ .error .outOfFuel) :
      State.place { t with program := s.program } = s.place := by
    have h := ht hr
    simp only [State.place, Place.mk.injEq] at h ⊢
    exact ⟨h.1, trivial, h.2.2⟩
  exact (hx _).adjust (fun a => put_back (.ok a)) fun e => put_back (.error e)

/-- An action that changes neither the scope nor the program nor the count. -/
theorem of_done {x : Action α} (h : ∀ s, ∃ a t, x s = .done a t ∧ t.place = s.place) :
    x.Restores := by
  intro s
  obtain ⟨a, t, hx, ht⟩ := h s
  rw [hx]
  exact fun _ => ht

end Action.Restores

/-! ### Names, objects and calls -/

@[simp] theorem Environment.scope_write (env : Environment) (i : Nat) (name : String)
    (value : Value) : (env.write i name value).scope = env.scope := rfl

@[simp] theorem Environment.scope_define (env : Environment) (name : String) (value : Value) :
    (env.define name value).scope = env.scope := by
  rw [define]
  split <;> rfl

theorem readName_restores (name : String) : (readName name).Restores := by
  intro s
  rw [readName]
  split
  · exact fun _ => rfl
  · exact fail_restores _ s

theorem defineName_restores (name : String) (value : Value) :
    (defineName name value).Restores :=
  .of_done fun s => ⟨(), _, rfl, by simp [State.place]⟩

theorem assignName_restores (name : String) (value : Value) :
    (assignName name value).Restores := by
  intro s
  rw [assignName]
  split
  · exact fun _ => rfl
  · exact fail_restores _ s

theorem printLine_restores (text : String) : (printLine text).Restores :=
  .of_done fun _ => ⟨(), _, rfl, rfl⟩

theorem newId_restores : newId.Restores := .of_done fun _ => ⟨_, _, rfl, rfl⟩

theorem newFunction_restores (name : Option String) (params : List String) (body : List Stmt) :
    (newFunction name params body).Restores :=
  newId_restores.bind fun _ => .of_done fun _ => ⟨_, _, rfl, rfl⟩

theorem newClass_restores (name : String) : (newClass name).Restores :=
  newId_restores.bind fun _ => pure_restores _

theorem newObject_restores (name : String) : (newObject name).Restores :=
  .of_done fun _ => ⟨_, _, rfl, rfl⟩

theorem objectId_restores (v : Value) : (objectId v).Restores := by
  unfold objectId
  split
  · exact pure_restores _
  · exact fail_restores _

theorem readField_restores (id : Nat) (name : String) : (readField id name).Restores := by
  intro s
  rw [readField]
  split
  · exact fun _ => rfl
  · exact fail_restores _ s

theorem writeField_restores (id : Nat) (name : String) (value : Value) :
    (writeField id name value).Restores :=
  .of_done fun _ => ⟨(), _, rfl, rfl⟩

/-- A call ends where it was asked for, since calls do. -/
theorem requestCall_restores (f : Function) (args : List Value) :
    (requestCall f args).Restores := by
  intro s
  rw [requestCall]
  split
  · exact fail_restores _ s
  · exact ⟨trivial, fun r t hr => Step.meets_ofReply hr⟩

theorem callNative_restores (f : Native) (args : List Value) : (callNative f args).Restores :=
  fun s => ofExcept_restores (f.builtin.apply s.clock.reading args)
    { s with clock := s.clock.after f.builtin }

theorem callValue_restores (callee : Value) (args : List Value) :
    (callValue callee args).Restores := by
  unfold callValue
  split
  · exact fail_restores _
  · split
    · exact fail_restores _
    · split
      · exact requestCall_restores _ _
      · exact callNative_restores _ _
      · exact newObject_restores _
      · exact fail_restores _

/-! ### Expressions and statements -/

mutual

theorem eval_restores : ∀ e : Expr, (eval e).Restores
  | .literal _ v => by rw [eval]; exact pure_restores _
  | .group _ e => by rw [eval]; exact (eval_restores e).blaming _
  | .unary _ op e => by
    rw [eval]
    exact ((eval_restores e).bind fun v => ofExcept_restores _).blaming _
  | .binary _ l op r => by
    rw [eval]
    exact ((eval_restores l).bind fun _ => (eval_restores r).bind fun _ =>
      ofExcept_restores _).blaming _
  | .logical _ l op r => by
    rw [eval]
    refine ((eval_restores l).bind fun left => ?_).blaming _
    split
    · exact pure_restores _
    · exact eval_restores r
  | .var _ x => by rw [eval]; exact (readName_restores x).blaming _
  | .assign _ x e => by
    rw [eval]
    exact ((eval_restores e).bind fun v => (assignName_restores x v).bind fun _ =>
      pure_restores _).blaming _
  | .call _ f es => by
    rw [eval]
    exact ((eval_restores f).bind fun callee => (evalAll_restores es).bind fun args =>
      callValue_restores callee args).blaming _
  | .lambda _ params body => by rw [eval]; exact newFunction_restores _ _ _
  | .get _ e x => by
    rw [eval]
    exact ((eval_restores e).bind fun v => (objectId_restores v).bind fun id =>
      readField_restores id x).blaming _
  | .set _ e x v => by
    rw [eval]
    exact ((eval_restores e).bind fun o => (objectId_restores o).bind fun id =>
      (eval_restores v).bind fun value => (writeField_restores id x value).bind fun _ =>
        pure_restores _).blaming _

theorem evalAll_restores : ∀ es : List Expr, (evalAll es).Restores
  | [] => by rw [evalAll]; exact pure_restores _
  | e :: es => by
    rw [evalAll]
    exact (eval_restores e).bind fun _ => (evalAll_restores es).bind fun _ => pure_restores _

end

theorem evalOption_restores (e : Option Expr) : (evalOption e).Restores := by
  cases e with
  | none => exact pure_restores _
  | some e => exact eval_restores e

theorem repeatWhile_restores {condition : Action Value} {body : Action Flow}
    (hc : condition.Restores) (hb : body.Restores) (n : Nat) :
    (repeatWhile condition body n).Restores := by
  induction n with
  | zero => exact stopWith_restores _
  | succ n ih =>
    rw [repeatWhile]
    refine hc.bind fun v => ?_
    split
    · refine hb.bind fun flow => ?_
      cases flow with
      | next => exact ih
      | leave => exact pure_restores _
      | result v => exact pure_restores _
    · exact pure_restores _

mutual

theorem exec_restores (fuel : Nat) : ∀ s : Stmt, (exec fuel s).Restores
  | .expression _ e => by
    rw [exec]
    exact (eval_restores e).bind fun _ => pure_restores _
  | .print _ e => by
    rw [exec]
    exact (eval_restores e).bind fun _ => (printLine_restores _).bind fun _ => pure_restores _
  | .varDecl _ x e => by
    rw [exec]
    exact (evalOption_restores e).bind fun v => (defineName_restores x v).bind fun _ =>
      pure_restores _
  | .block _ body => by
    rw [exec]
    exact (execAll_restores fuel body).within _
  | .ifElse _ c t e => by
    rw [exec]
    refine (eval_restores c).bind fun v => ?_
    split
    · exact exec_restores fuel t
    · exact execOption_restores fuel e
  | .whileDo _ c b => by
    rw [exec]
    exact repeatWhile_restores (eval_restores c) (exec_restores fuel b) fuel
  | .funDecl _ x params body => by
    rw [exec]
    exact (newFunction_restores _ _ _).bind fun v => (defineName_restores x v).bind fun _ =>
      pure_restores _
  | .returns _ e => by
    rw [exec]
    exact (evalOption_restores e).bind fun _ => pure_restores _
  | .breaks _ e => by
    rw [exec]
    exact (evalOption_restores e).bind fun _ => pure_restores _
  | .classDecl _ x => by
    rw [exec]
    exact (newClass_restores x).bind fun v => (defineName_restores x v).bind fun _ =>
      pure_restores _

theorem execOption_restores (fuel : Nat) : ∀ s : Option Stmt, (execOption fuel s).Restores
  | none => by rw [execOption]; exact pure_restores _
  | some s => by rw [execOption]; exact exec_restores fuel s

theorem execAll_restores (fuel : Nat) : ∀ ss : List Stmt, (execAll fuel ss).Restores
  | [] => by rw [execAll]; exact pure_restores _
  | s :: rest => by
    rw [execAll]
    refine (exec_restores fuel s).bind fun flow => ?_
    cases flow with
    | next => exact execAll_restores fuel rest
    | leave => exact pure_restores _
    | result v => exact pure_restores _

end

/-! ### Calls and sessions -/

theorem Function.apply_restores (fuel : Nat) (f : Function) (args : List Value) :
    (f.apply fuel args).Restores := by
  refine (((execAll_restores fuel f.body).inProgram _).within _).counted.bind fun flow => ?_
  cases flow with
  | next => exact pure_restores _
  | result v => exact pure_restores _
  | leave => exact fail_restores _

theorem restoring_sound (fuel : Nat) : restoring.Sound fuel where
  body f args s _ := Function.apply_restores fuel f args s
  giveUp _ _ _ _ h := absurd rfl h

theorem Action.Restores.run {x : Action α} (hx : x.Restores) {fuel : Nat} {s t : State}
    {r : Except Stop α} (h : x.run fuel s = (r, t)) (hr : r ≠ .error .outOfFuel) :
    t.place = s.place := by
  have hq := (restoring_sound fuel).run (hx s)
  rw [Action.run] at h
  rw [h] at hq
  exact hq hr

theorem runStatements_restores (fuel : Nat) (ss : List Stmt) :
    (runStatements fuel ss).Restores := by
  induction ss with
  | nil => exact pure_restores _
  | cons s rest ih =>
    rw [runStatements]
    refine (exec_restores fuel s).bind fun flow => ?_
    cases flow with
    | next => exact ih
    | leave => exact stopWith_restores _
    | result v => exact stopWith_restores _

namespace Session

/-- A source leaves the top-level scope current and no body running. -/
theorem Ends.scope_depth {s : Session} {source : String} {o : Outcome} (h : s.Ends source o) :
    o.session.env.scope = s.env.scope ∧ o.session.state.depth = s.state.depth := by
  obtain ⟨fuel, h⟩ := h
  rcases run_eq_some_iff.1 h with ⟨p, -, rfl⟩ | ⟨program, -, h⟩
  · simp [reject, env]
  · obtain ⟨r, t, hrun, hr, rfl⟩ := runProgram_eq_some_iff.1 h
    have hp := (runStatements_restores fuel _).run hrun hr
    simp only [State.place, state_read, Place.mk.injEq] at hp
    exact ⟨hp.1, hp.2.2⟩

theorem Reaches.scope_depth {origin s : Session} (h : origin.Reaches s) :
    s.env.scope = origin.env.scope ∧ s.state.depth = origin.state.depth := by
  induction h with
  | refl => exact ⟨rfl, rfl⟩
  | setClock _ _ ih => exact ih
  | run _ ends ih => exact ⟨ends.scope_depth.1.trans ih.1, ends.scope_depth.2.trans ih.2⟩

end Session

/-- **However code is left, the place is restored.** In every state, an expression or a statement
that ends, with a result or with an error of any depth, ends in the scope, in the program and with
the number of running bodies that it started with. So the sources of a session, failed or not, all
start in its first top-level scope, with no body running. -/
theorem place_restored :
    (∀ (stmt : Stmt) (s t : State) (r : Except Stop Flow), stmt.Ends s r t →
      t.env.scope = s.env.scope ∧ t.program = s.program ∧ t.depth = s.depth) ∧
    (∀ (e : Expr) (s t : State) (r : Reply), e.Ends s r t →
      t.env.scope = s.env.scope ∧ t.program = s.program ∧ t.depth = s.depth) ∧
    (∀ (clock : Clock) (s : Session), (Session.start clock).Reaches s →
      s.env.scope = (Session.start clock).env.scope ∧ s.state.depth = 0) := by
  refine ⟨fun stmt s t r h => ?_, fun e s t r h => ?_, fun clock s h => h.scope_depth⟩
  · obtain ⟨hr, fuel, hrun⟩ := h
    simpa [State.place] using (exec_restores fuel stmt).run hrun hr
  · obtain ⟨hr, fuel, hrun⟩ := h
    simpa [State.place] using (eval_restores e).run hrun hr

/-- A block that calls a function, in whose body a block fails. -/
def failingCall : Stmt :=
  let mark : Mark := ⟨0, .point 0⟩
  let body : Stmt := .block mark [.expression mark (.call ⟨0, .point 7⟩ (.literal mark .nil) [])]
  .block mark [.expression mark (.call mark (.lambda mark [] [body]) [])]

/-- The failure passes a block, a function body and a block again. -/
theorem place_restored_failingCall :
    ∃ t, failingCall.Ends (.start 0)
        (.error (.error ⟨.notCallable .nil, some (.point 7)⟩)) t ∧
      t.env.scope = (State.start 0).env.scope ∧ t.program = (State.start 0).program ∧
      t.depth = (State.start 0).depth := by
  let t := ((exec 9 failingCall).run 9 (.start 0)).2
  have ends : failingCall.Ends (.start 0)
      (.error (.error ⟨.notCallable .nil, some (.point 7)⟩)) t := ⟨by simp, 9, rfl⟩
  exact ⟨t, ends, place_restored.1 _ _ _ _ ends⟩

end Lox
