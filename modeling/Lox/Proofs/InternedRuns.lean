import Lox.Proofs.InternedSteps

/-!
# Interned runs

Interned trees do what the trees do, with any fuel, if the name table holds the names and texts of
the trees.

* `eval_represents`, `exec_represents`: expressions and statements;
* `apply_represents`, `runCalls_represents`: calls, and the calls that they ask for;
* `Step.Represents.run`: the ends of steps;
* `runStatements_represents`: the statements of a program.
-/

namespace Lox.Interned

variable {α β : Type} {t : NameTable}

/-! ### Expressions -/

theorem Literal.value_interned {v : Lox.Literal} {m : Mark}
    (h : t.HoldsAll (Lox.Expr.literal m v).nodes) : (v.interned t).value t = v.value := by
  cases v with
  | str s =>
    have hs : s ∈ t.texts := by simpa [Lox.Expr.nodes, Node.texts] using h
    exact congrArg Lox.Value.str (NameTable.lookup_number hs)
  | _ => rfl

mutual

/-- The value of an interned expression is that of the expression. -/
theorem eval_represents : ∀ e : Lox.Expr, t.HoldsAll e.nodes →
    (eval (e.interned t)).Represents t (Value.Represents t) (Lox.eval e)
  | .literal m v, h => by
    rw [Lox.Expr.interned, eval, Lox.eval]
    intro u s hs
    refine .done ?_ hs
    rw [hs.names, Literal.value_interned h]
    exact .data v.plain_value
  | .group m e, h => by
    simp only [Lox.Expr.nodes, textsEach_cons] at h
    rw [Lox.Expr.interned, eval, Lox.eval]
    exact (eval_represents e h.2).blaming m.span
  | .unary m op e, h => by
    simp only [Lox.Expr.nodes, textsEach_cons] at h
    rw [Lox.Expr.interned, eval, Lox.eval]
    refine ((eval_represents e h.2).bind ?_).blaming m.span
    rintro _ v ⟨rfl, -⟩
    rw [UnaryOp.apply_face_interned]
    exact ofExcept_represents (op.returns_apply v)
  | .binary m l op r, h => by
    simp only [Lox.Expr.nodes, textsEach_cons, textsEach_append] at h
    rw [Lox.Expr.interned, eval, Lox.eval]
    refine ((eval_represents l h.2.1).bind ?_).blaming m.span
    rintro _ v ⟨rfl, -⟩
    refine (eval_represents r h.2.2).bind ?_
    rintro _ v' ⟨rfl, -⟩
    rw [BinaryOp.apply_face_interned]
    exact ofExcept_represents (op.returns_apply v v')
  | .logical m l op r, h => by
    simp only [Lox.Expr.nodes, textsEach_cons, textsEach_append] at h
    rw [Lox.Expr.interned, eval, Lox.eval]
    refine ((eval_represents l h.2.1).bind ?_).blaming m.span
    rintro _ v ⟨rfl, hv⟩
    rw [LogicalOp.decides_face_interned]
    split
    · exact pure_represents ⟨rfl, hv⟩
    · exact eval_represents r h.2.2
  | .var m x, h => by
    simp only [Lox.Expr.nodes, textsEach_cons, Node.texts, List.forall_mem_singleton] at h
    rw [Lox.Expr.interned, eval, Lox.eval]
    exact (readName_represents h.1).blaming m.span
  | .assign m x e, h => by
    simp only [Lox.Expr.nodes, textsEach_cons, Node.texts, List.forall_mem_singleton] at h
    rw [Lox.Expr.interned, eval, Lox.eval]
    refine ((eval_represents e h.2).bind fun w v hv => ?_).blaming m.span
    exact (assignName_represents h.1 hv).bind fun _ _ _ => pure_represents hv
  | .call m f args, h => by
    simp only [Lox.Expr.nodes, textsEach_cons, textsEach_append] at h
    rw [Lox.Expr.interned, eval, Lox.eval]
    refine ((eval_represents f h.2.1).bind fun w v hv => ?_).blaming m.span
    exact (evalAll_represents args h.2.2).bind fun ws vs hvs => callValue_represents hv hvs
  | .lambda m params body, h => by
    simp only [Lox.Expr.nodes, textsEach_cons, Node.texts] at h
    rw [Lox.Expr.interned, eval, Lox.eval]
    exact newFunction_represents none (by simp) h.1 h.2
  | .get m e x, h => by
    simp only [Lox.Expr.nodes, textsEach_cons, Node.texts, List.forall_mem_singleton] at h
    rw [Lox.Expr.interned, eval, Lox.eval]
    refine ((eval_represents e h.2).bind fun w v hv => ?_).blaming m.span
    refine (objectId_represents hv).bind ?_
    rintro id _ rfl
    exact readField_represents id h.1
  | .set m e x v, h => by
    simp only [Lox.Expr.nodes, textsEach_cons, textsEach_append, Node.texts,
      List.forall_mem_singleton] at h
    rw [Lox.Expr.interned, eval, Lox.eval]
    refine ((eval_represents e h.2.1).bind fun w o ho => ?_).blaming m.span
    refine (objectId_represents ho).bind ?_
    rintro id _ rfl
    refine (eval_represents v h.2.2).bind fun w v hv => ?_
    exact (writeField_represents id h.1 hv).bind fun _ _ _ => pure_represents hv

theorem evalAll_represents : ∀ es : List Lox.Expr, t.HoldsAll (nodesEach es) →
    (evalAll (internedEach t es)).Represents t (ValuesRepresent t) (Lox.evalAll es)
  | [], _ => by
    rw [internedEach, evalAll, Lox.evalAll]
    exact pure_represents ⟨rfl, by simp⟩
  | e :: es, h => by
    simp only [nodesEach, textsEach_append] at h
    rw [internedEach, evalAll, Lox.evalAll]
    refine (eval_represents e h.1).bind ?_
    rintro _ v ⟨rfl, hv⟩
    refine (evalAll_represents es h.2).bind ?_
    rintro _ vs ⟨rfl, hvs⟩
    exact pure_represents ⟨rfl, List.forall_mem_cons.2 ⟨hv, hvs⟩⟩

end

theorem evalOption_represents (e : Option Lox.Expr) (h : t.HoldsAll (nodesOption e)) :
    (evalOption (internedOption t e)).Represents t (Value.Represents t) (Lox.evalOption e) := by
  cases e with
  | none => exact pure_represents (.data trivial)
  | some e => exact eval_represents e h

/-! ### Statements -/

/-- The same way to end, with a result that has the numbers of a table. -/
inductive Flow.Represents (t : NameTable) : Flow → Lox.Flow → Prop
  | next : Represents t .next .next
  | leave : Represents t .leave .leave
  | result {w : Value} {v : Lox.Value} (h : w.Represents t v) : Represents t (.result w) (.result v)

theorem repeatWhile_represents {condition : Action Value} {condition' : Lox.Action Lox.Value}
    {body : Action Flow} {body' : Lox.Action Lox.Flow}
    (hc : condition.Represents t (Value.Represents t) condition')
    (hb : body.Represents t (Flow.Represents t) body') (n : Nat) :
    (repeatWhile condition body n).Represents t (Flow.Represents t)
      (Lox.repeatWhile condition' body' n) := by
  induction n with
  | zero => exact stopWith_represents _
  | succ n ih =>
    rw [repeatWhile, Lox.repeatWhile]
    refine hc.bind ?_
    rintro _ v ⟨rfl, -⟩
    rw [Lox.Value.truthy_face_interned]
    split
    · refine hb.bind fun flow flow' hflow => ?_
      cases hflow with
      | next => exact ih
      | leave => exact pure_represents .next
      | result hv => exact pure_represents (.result hv)
    · exact pure_represents .next

/-- A declaration gives a name its value. -/
theorem declare_represents {x : String} (hx : x ∈ t.texts) {make : Action Value}
    {make' : Lox.Action Lox.Value} (h : make.Represents t (Value.Represents t) make') :
    (make >>= fun v => defineName (t.number x) v >>= fun _ => pure Flow.next).Represents t
      (Flow.Represents t)
      (make' >>= fun v => Lox.defineName x v >>= fun _ => pure Lox.Flow.next) :=
  h.bind fun _ _ hv => (defineName_represents hx hv).bind fun _ _ _ => pure_represents .next

mutual

/-- An interned statement ends as the statement does. -/
theorem exec_represents (fuel : Nat) : ∀ s : Lox.Stmt, t.HoldsAll s.nodes →
    (exec fuel (s.interned t)).Represents t (Flow.Represents t) (Lox.exec fuel s)
  | .expression m e, h => by
    simp only [Lox.Stmt.nodes, textsEach_cons] at h
    rw [Lox.Stmt.interned, exec, Lox.exec]
    exact (eval_represents e h.2).bind fun _ _ _ => pure_represents .next
  | .print m e, h => by
    simp only [Lox.Stmt.nodes, textsEach_cons] at h
    rw [Lox.Stmt.interned, exec, Lox.exec]
    refine (eval_represents e h.2).bind ?_
    rintro _ v ⟨rfl, -⟩
    rw [Lox.Value.display_face_interned]
    exact (printLine_represents _).bind fun _ _ _ => pure_represents .next
  | .varDecl m x e, h => by
    simp only [Lox.Stmt.nodes, textsEach_cons, Node.texts, List.forall_mem_singleton] at h
    rw [Lox.Stmt.interned, exec, Lox.exec]
    exact declare_represents h.1 (evalOption_represents e h.2)
  | .block m body, h => by
    simp only [Lox.Stmt.nodes, textsEach_cons] at h
    rw [Lox.Stmt.interned, exec, Lox.exec]
    exact (execAll_represents fuel body h.2).within fun _ _ _ he => he.push
  | .ifElse m c s e, h => by
    simp only [Lox.Stmt.nodes, textsEach_cons, textsEach_append] at h
    rw [Lox.Stmt.interned, exec, Lox.exec]
    refine (eval_represents c h.2.1.1).bind ?_
    rintro _ v ⟨rfl, -⟩
    rw [Lox.Value.truthy_face_interned]
    split
    · exact exec_represents fuel s h.2.1.2
    · exact execOption_represents fuel e h.2.2
  | .whileDo m c b, h => by
    simp only [Lox.Stmt.nodes, textsEach_cons, textsEach_append] at h
    rw [Lox.Stmt.interned, exec, Lox.exec]
    exact repeatWhile_represents (eval_represents c h.2.1) (exec_represents fuel b h.2.2) fuel
  | .funDecl m x params body, h => by
    simp only [Lox.Stmt.nodes, textsEach_cons, Node.texts, List.forall_mem_cons] at h
    rw [Lox.Stmt.interned, exec, Lox.exec]
    exact declare_represents h.1.1
      (newFunction_represents (some x) (by simpa using h.1.1) h.1.2 h.2)
  | .returns m e, h => by
    simp only [Lox.Stmt.nodes, textsEach_cons] at h
    rw [Lox.Stmt.interned, exec, Lox.exec]
    exact (evalOption_represents e h.2).bind fun _ _ hv => pure_represents (.result hv)
  | .breaks m e, h => by
    simp only [Lox.Stmt.nodes, textsEach_cons] at h
    rw [Lox.Stmt.interned, exec, Lox.exec]
    exact (evalOption_represents e h.2).bind fun _ _ _ => pure_represents .leave
  | .classDecl m x, h => by
    simp only [Lox.Stmt.nodes, textsEach_cons, Node.texts, List.forall_mem_singleton] at h
    rw [Lox.Stmt.interned, exec, Lox.exec]
    exact declare_represents h.1 (newClass_represents h.1)

theorem execOption_represents (fuel : Nat) : ∀ s : Option Lox.Stmt, t.HoldsAll (nodesElse s) →
    (execOption fuel (internedElse t s)).Represents t (Flow.Represents t) (Lox.execOption fuel s)
  | none, _ => by
    rw [internedElse, execOption, Lox.execOption]
    exact pure_represents .next
  | some s, h => by
    rw [internedElse, execOption, Lox.execOption]
    exact exec_represents fuel s h

theorem execAll_represents (fuel : Nat) : ∀ ss : List Lox.Stmt, t.HoldsAll (nodesAll ss) →
    (execAll fuel (internedAll t ss)).Represents t (Flow.Represents t) (Lox.execAll fuel ss)
  | [], _ => by
    rw [internedAll, execAll, Lox.execAll]
    exact pure_represents .next
  | s :: ss, h => by
    simp only [nodesAll, textsEach_append] at h
    rw [internedAll, execAll, Lox.execAll]
    refine (exec_represents fuel s h.1).bind fun flow flow' hflow => ?_
    cases hflow with
    | next => exact execAll_represents fuel ss h.2
    | leave => exact pure_represents .leave
    | result hv => exact pure_represents (.result hv)

end

/-! ### Calls -/

theorem apply_represents (fuel : Nat) {f : Lox.Function} (hf : f.Held t) {args : List Lox.Value}
    (hargs : ∀ v ∈ args, v.Held t) :
    ((f.interned t).apply fuel (args.map (Lox.Value.interned t))).Represents t
      (Value.Represents t) (f.apply fuel args) := by
  have hbody := (execAll_represents fuel f.body hf.body).inProgram f.program
  refine (hbody.within fun hdistinct _ _ he => he.enterFunction hdistinct hf hargs).counted.bind
    fun flow flow' hflow => ?_
  cases hflow with
  | next => exact pure_represents (.data trivial)
  | leave => exact fail_represents _
  | result hv => exact pure_represents hv

/-- What is to be done after a call goes on so from the same result of it. -/
def Resumption.Represents (t : NameTable) (k : Resumption) (k' : Lox.Resumption) : Prop :=
  ∀ r r' u s, Reply.Represents t r r' → u.Represents t s →
    (k r u).Represents t (Value.Represents t) (k' r' s)

/-- Steps come to the same result, with the same calls, within the same bounds. -/
theorem runCalls_represents (fuel n : Nat) {x : Step Value} {y : Lox.Step Lox.Value}
    (h : x.Represents t (Value.Represents t) y) {stack : List Resumption}
    {stack' : List Lox.Resumption} (hstack : List.Forall₂ (Resumption.Represents t) stack stack') :
    Reply.Represents t (runCalls fuel n stack x).1 (Lox.runCalls fuel n stack' y).1 ∧
      (runCalls fuel n stack x).2.Represents t (Lox.runCalls fuel n stack' y).2 := by
  induction n generalizing x y stack stack' with
  | zero =>
    rw [runCalls, Lox.runCalls]
    cases h with
    | done _ hs | stop _ hs | call _ _ hs => exact ⟨.error _, hs⟩
  | succ n ih =>
    cases h with
    | done hv hs =>
      cases hstack with
      | nil => exact ⟨.ok hv, hs⟩
      | cons hk htail => exact ih (hk _ _ _ _ (.ok hv) hs) htail
    | stop e hs =>
      cases hstack with
      | nil => exact ⟨.error e, hs⟩
      | cons hk htail => exact ih (hk _ _ _ _ (.error e) hs) htail
    | call hf hargs hs hk => exact ih (apply_represents fuel hf hargs _ _ hs) (.cons hk hstack)

/-- Steps come to the same end, with all calls that they ask for. -/
theorem Step.Represents.run {R : β → α → Prop} {x : Step β} {y : Lox.Step α}
    (h : x.Represents t R y) (fuel : Nat) :
    SameEnd R (x.run fuel).1 (y.run fuel).1 ∧ (x.run fuel).2.Represents t (y.run fuel).2 := by
  induction h with
  | done hab hs => exact ⟨.ok hab, hs⟩
  | stop e hs => exact ⟨.error e, hs⟩
  | call hf hargs hs hk ih =>
    obtain ⟨hr, hs⟩ := runCalls_represents fuel fuel (apply_represents fuel hf hargs _ _ hs) .nil
    exact ih _ _ _ _ hr hs

theorem runStatements_represents (fuel : Nat) {ss : List Lox.Stmt}
    (h : t.HoldsAll (nodesAll ss)) :
    (runStatements fuel (internedAll t ss)).Represents t Eq (Lox.runStatements fuel ss) := by
  induction ss with
  | nil => exact pure_represents rfl
  | cons s ss ih =>
    simp only [nodesAll, textsEach_append] at h
    rw [internedAll, runStatements, Lox.runStatements, Stmt.span_interned]
    refine (exec_represents fuel s h.1).bind fun flow flow' hflow => ?_
    cases hflow with
    | next => exact ih h.2
    | leave => exact stopWith_represents _
    | result => exact stopWith_represents _

end Lox.Interned
