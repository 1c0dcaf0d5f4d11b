import Lox.Proofs.Functions
import Lox.Proofs.Nodes
import Lox.Proofs.Operators

/-!
# Logics of actions

What expressions and statements do is built from a few actions on names, objects, functions and
output. A logic says what holds of these, and so what holds of every expression and statement.
What it says is about a world, the knowledge about states that grows while they change, and about
values that are good in a world.

* `Fault.OfFlow`: the faults of a `break` or a `return` that nothing takes up;
* `ActionLogic`: what holds of actions, with a law for each of them;
* `ActionLogic.eval`, `ActionLogic.exec`: expressions and statements, by one pass over their trees.
-/

namespace Lox

/-- The faults of a `break` or a `return` that nothing takes up. None of them arises in an
expression or a statement. -/
def Fault.OfFlow : Fault → Prop
  | returnOutsideFunction | breakOutsideLoop => True
  | _ => False

theorem UnaryOp.Raises.not_ofFlow {op : UnaryOp} {fault : Fault} (h : op.Raises fault) :
    ¬ fault.OfFlow := by
  cases fault with
  | returnOutsideFunction | breakOutsideLoop => cases h
  | _ => exact id

theorem BinaryOp.Raises.not_ofFlow {op : BinaryOp} {fault : Fault} (h : op.Raises fault) :
    ¬ fault.OfFlow := by
  cases fault with
  | returnOutsideFunction | breakOutsideLoop => cases h
  | _ => exact id

theorem Builtin.Raises.not_ofFlow {builtin : Builtin} {fault : Fault} (h : builtin.Raises fault) :
    ¬ fault.OfFlow := by
  cases fault with
  | returnOutsideFunction | breakOutsideLoop => cases h
  | _ => exact id

/-- The value that a statement leaves a function with is of a sort. -/
def Flow.Gives (R : Value → Prop) : Flow → Prop
  | result v => R v
  | _ => True

/-- What holds of actions: `Holds w R x` says that `x`, where `w` is known, keeps what is known and
has a result that is as `R` says, and `Makes` says which nodes code may have: literals, functions
that it makes, and loops. -/
structure ActionLogic where
  World : Type
  Grows : World → World → Prop
  Good : World → Value → Prop
  Makes : Node → Prop
  Holds : {α : Type} → World → (World → α → Prop) → Action α → Prop
  good_mono : ∀ {w w' : World} {v : Value}, Grows w w' → Good w v → Good w' v
  /-- What operators and built-in functions result in is good. -/
  good_data : ∀ {w : World} {v : Value}, v.Plain → v.Spells Short → Good w v
  good_literal : ∀ {w : World} {m : Mark} {v : Literal}, Makes (.expr (.literal m v)) →
    Good w v.value
  holds_pure : ∀ {α : Type} {w : World} {R : World → α → Prop} {a : α}, R w a →
    Holds w R (pure a)
  holds_fail : ∀ {α : Type} {w : World} {R : World → α → Prop} {fault : Fault},
    ¬ fault.OfFlow → Holds w R (fail fault)
  holds_giveUp : ∀ {α : Type} {w : World} {R : World → α → Prop} {m : Mark} {c : Expr} {b : Stmt},
    Makes (.stmt (.whileDo m c b)) → Holds w R (stopWith .outOfFuel)
  holds_bind : ∀ {α β : Type} {w : World} {R : World → α → Prop} {Q : World → β → Prop}
    {x : Action α} {g : α → Action β}, Holds w R x →
    (∀ w' a, Grows w w' → R w' a → Holds w' Q (g a)) → Holds w Q (x >>= g)
  holds_blaming : ∀ {α : Type} {w : World} {R : World → α → Prop} {x : Action α} (span : Span),
    Holds w R x → Holds w R (blaming span x)
  /-- A block, around which a world becomes known in which there is a frame for it. -/
  holds_block : ∀ {α : Type} {w : World} {R : World → α → Prop} {x : Action α},
    (∀ w', Grows w w' → Holds w' R x) → Holds w R (within .push x)
  holds_readName : ∀ {w : World} (name : String), Holds w Good (readName name)
  holds_defineName : ∀ {w : World} (name : String) {value : Value}, Good w value →
    Holds w (fun _ _ => True) (defineName name value)
  holds_assignName : ∀ {w : World} (name : String) {value : Value}, Good w value →
    Holds w (fun _ _ => True) (assignName name value)
  holds_printLine : ∀ {w : World} (text : String), Holds w (fun _ _ => True) (printLine text)
  holds_newId : ∀ {w : World}, Holds w (fun _ _ => True) newId
  holds_lambda : ∀ {w : World} {m : Mark} {params : List String} {body : List Stmt},
    Makes (.expr (.lambda m params body)) → Holds w Good (newFunction none params body)
  holds_funDecl : ∀ {w : World} {m : Mark} {name : String} {params : List String}
    {body : List Stmt}, Makes (.stmt (.funDecl m name params body)) →
    Holds w Good (newFunction (some name) params body)
  holds_newObject : ∀ {w : World} (className : String), Holds w Good (newObject className)
  holds_readField : ∀ {w : World} {id : Nat} {className : String} (name : String),
    Good w (.object id className) → Holds w Good (readField id name)
  holds_writeField : ∀ {w : World} {id : Nat} {className : String} (name : String)
    {value : Value}, Good w (.object id className) → Good w value →
    Holds w (fun _ _ => True) (writeField id name value)
  holds_requestCall : ∀ {w : World} {id : Nat} {f : Function} {args : List Value},
    Good w (.function id f) → (∀ v ∈ args, Good w v) → Holds w Good (requestCall f args)
  holds_callNative : ∀ {w : World} (f : Native) (args : List Value),
    Holds w Good (callNative f args)

namespace ActionLogic

variable (L : ActionLogic) {w : L.World}

/-! ### Actions on values -/

theorem ofExcept {F : Fault → Prop} {r : Except Fault Value} (h : Returns F r)
    (hF : ∀ fault, F fault → ¬ fault.OfFlow) : L.Holds w L.Good (ofExcept r) := by
  cases r with
  | ok v => exact L.holds_pure (L.good_data h.1 h.2)
  | error fault => exact L.holds_fail (hF fault h)

theorem newClass (name : String) : L.Holds w L.Good (newClass name) :=
  L.holds_bind L.holds_newId fun _ _ _ _ => L.holds_pure (L.good_data trivial trivial)

/-- The number of a good value that is an object. -/
theorem objectId {v : Value} (h : L.Good w v) :
    L.Holds w (fun w id => ∃ className, L.Good w (.object id className)) (objectId v) := by
  cases v with
  | object id className => exact L.holds_pure ⟨className, h⟩
  | _ => exact L.holds_fail id

theorem callValue {callee : Value} (hcallee : L.Good w callee) {args : List Value}
    (hargs : ∀ v ∈ args, L.Good w v) : L.Holds w L.Good (callValue callee args) := by
  unfold Lox.callValue
  split
  · exact L.holds_fail id
  · split
    · exact L.holds_fail id
    · split
      · exact L.holds_requestCall hcallee hargs
      · exact L.holds_callNative _ _
      · exact L.holds_newObject _
      · exact L.holds_fail id

/-! ### Expressions and statements -/

/-- Code may have all of certain nodes. -/
def Covers (nodes : List Node) : Prop := ∀ n ∈ nodes, L.Makes n

variable {L}

theorem Covers.cons {n : Node} {ns : List Node} (h : L.Covers (n :: ns)) :
    L.Makes n ∧ L.Covers ns :=
  List.forall_mem_cons.1 h

theorem Covers.append {ms ns : List Node} (h : L.Covers (ms ++ ns)) : L.Covers ms ∧ L.Covers ns :=
  List.forall_mem_append.1 h

variable (L)

mutual

theorem eval {w : L.World} : ∀ e : Expr, L.Covers e.nodes → L.Holds w L.Good (eval e)
  | .literal _ v, h => by
    rw [Lox.eval]
    exact L.holds_pure (L.good_literal h.cons.1)
  | .group _ e, h => by
    rw [Lox.eval]
    exact L.holds_blaming _ (eval e h.cons.2)
  | .unary _ op e, h => by
    rw [Lox.eval]
    exact L.holds_blaming _ (L.holds_bind (eval e h.cons.2) fun _ v _ _ =>
      L.ofExcept (op.returns_apply v) fun _ => UnaryOp.Raises.not_ofFlow)
  | .binary _ l op r, h => by
    obtain ⟨hl, hr⟩ := h.cons.2.append
    rw [Lox.eval]
    exact L.holds_blaming _ (L.holds_bind (eval l hl) fun _ v _ _ =>
      L.holds_bind (eval r hr) fun _ v' _ _ =>
        L.ofExcept (op.returns_apply v v') fun _ => BinaryOp.Raises.not_ofFlow)
  | .logical _ l op r, h => by
    obtain ⟨hl, hr⟩ := h.cons.2.append
    rw [Lox.eval]
    refine L.holds_blaming _ (L.holds_bind (eval l hl) fun _ left _ hleft => ?_)
    split
    · exact L.holds_pure hleft
    · exact eval r hr
  | .var _ x, _ => by
    rw [Lox.eval]
    exact L.holds_blaming _ (L.holds_readName x)
  | .assign _ x e, h => by
    rw [Lox.eval]
    exact L.holds_blaming _ (L.holds_bind (eval e h.cons.2) fun _ v _ hv =>
      L.holds_bind (L.holds_assignName x hv) fun _ _ hw _ => L.holds_pure (L.good_mono hw hv))
  | .call _ f es, h => by
    obtain ⟨hf, hes⟩ := h.cons.2.append
    rw [Lox.eval]
    exact L.holds_blaming _ (L.holds_bind (eval f hf) fun _ callee _ hcallee =>
      L.holds_bind (evalAll es hes) fun _ args hw hargs =>
        L.callValue (L.good_mono hw hcallee) hargs)
  | .lambda _ params body, h => by
    rw [Lox.eval]
    exact L.holds_lambda h.cons.1
  | .get _ e x, h => by
    rw [Lox.eval]
    refine L.holds_blaming _ (L.holds_bind (eval e h.cons.2) fun _ v _ hv =>
      L.holds_bind (L.objectId hv) fun _ id _ hid => ?_)
    obtain ⟨className, hid⟩ := hid
    exact L.holds_readField x hid
  | .set _ e x v, h => by
    obtain ⟨he, hv⟩ := h.cons.2.append
    rw [Lox.eval]
    refine L.holds_blaming _ (L.holds_bind (eval e he) fun _ o _ ho =>
      L.holds_bind (L.objectId ho) fun _ id _ hid =>
        L.holds_bind (eval v hv) fun _ value hw hvalue => ?_)
    obtain ⟨className, hid⟩ := hid
    exact L.holds_bind (L.holds_writeField x (L.good_mono hw hid) hvalue) fun _ _ hw _ =>
      L.holds_pure (L.good_mono hw hvalue)

theorem evalAll {w : L.World} : ∀ es : List Expr, L.Covers (nodesEach es) →
    L.Holds w (fun w vs => ∀ v ∈ vs, L.Good w v) (evalAll es)
  | [], _ => by
    rw [Lox.evalAll]
    exact L.holds_pure (by simp)
  | e :: es, h => by
    obtain ⟨he, hes⟩ := Covers.append h
    rw [Lox.evalAll]
    exact L.holds_bind (eval e he) fun _ v _ hv => L.holds_bind (evalAll es hes) fun _ vs hw hvs =>
      L.holds_pure (List.forall_mem_cons.2 ⟨L.good_mono hw hv, hvs⟩)

end

theorem evalOption (e : Option Expr) (h : L.Covers (nodesOption e)) :
    L.Holds w L.Good (evalOption e) := by
  cases e with
  | none => exact L.holds_pure (L.good_data trivial trivial)
  | some e => exact L.eval e h

/-- The values that statements leave functions with are good. -/
abbrev GoodFlow (w : L.World) (flow : Flow) : Prop := flow.Gives (L.Good w)

theorem repeatWhile {m : Mark} {c : Expr} {b : Stmt} (hloop : L.Makes (.stmt (.whileDo m c b)))
    {condition : Action Value} {body : Action Flow} (hc : ∀ w, L.Holds w L.Good condition)
    (hb : ∀ w, L.Holds w L.GoodFlow body) (n : Nat) (w : L.World) :
    L.Holds w L.GoodFlow (repeatWhile condition body n) := by
  induction n generalizing w with
  | zero => exact L.holds_giveUp hloop
  | succ n ih =>
    rw [Lox.repeatWhile]
    refine L.holds_bind (hc w) fun w v _ _ => ?_
    split
    · refine L.holds_bind (hb w) fun w flow _ hflow => ?_
      cases flow with
      | next => exact ih w
      | leave => exact L.holds_pure trivial
      | result v => exact L.holds_pure hflow
    · exact L.holds_pure trivial

mutual

theorem exec {w : L.World} (fuel : Nat) : ∀ s : Stmt, L.Covers s.nodes →
    L.Holds w L.GoodFlow (exec fuel s)
  | .expression _ e, h => by
    rw [Lox.exec]
    exact L.holds_bind (L.eval e h.cons.2) fun _ _ _ _ => L.holds_pure trivial
  | .print _ e, h => by
    rw [Lox.exec]
    exact L.holds_bind (L.eval e h.cons.2) fun _ _ _ _ =>
      L.holds_bind (L.holds_printLine _) fun _ _ _ _ => L.holds_pure trivial
  | .varDecl _ x e, h => by
    rw [Lox.exec]
    exact L.holds_bind (L.evalOption e h.cons.2) fun _ v _ hv =>
      L.holds_bind (L.holds_defineName x hv) fun _ _ _ _ => L.holds_pure trivial
  | .block _ body, h => by
    rw [Lox.exec]
    exact L.holds_block fun _ _ => execAll fuel body h.cons.2
  | .ifElse _ c t e, h => by
    obtain ⟨hct, he⟩ := h.cons.2.append
    obtain ⟨hc, ht⟩ := hct.append
    rw [Lox.exec]
    refine L.holds_bind (L.eval c hc) fun _ v _ _ => ?_
    split
    · exact exec fuel t ht
    · exact execOption fuel e he
  | .whileDo _ c b, h => by
    obtain ⟨hc, hb⟩ := h.cons.2.append
    rw [Lox.exec]
    exact L.repeatWhile h.cons.1 (fun _ => L.eval c hc) (fun _ => exec fuel b hb) fuel w
  | .funDecl _ x params body, h => by
    rw [Lox.exec]
    exact L.holds_bind (L.holds_funDecl h.cons.1) fun _ v _ hv =>
      L.holds_bind (L.holds_defineName x hv) fun _ _ _ _ => L.holds_pure trivial
  | .returns _ e, h => by
    rw [Lox.exec]
    exact L.holds_bind (L.evalOption e h.cons.2) fun _ v _ hv => L.holds_pure hv
  | .breaks _ e, h => by
    rw [Lox.exec]
    exact L.holds_bind (L.evalOption e h.cons.2) fun _ _ _ _ => L.holds_pure trivial
  | .classDecl _ x, _ => by
    rw [Lox.exec]
    exact L.holds_bind (L.newClass x) fun _ v _ hv =>
      L.holds_bind (L.holds_defineName x hv) fun _ _ _ _ => L.holds_pure trivial

theorem execOption {w : L.World} (fuel : Nat) : ∀ s : Option Stmt, L.Covers (nodesElse s) →
    L.Holds w L.GoodFlow (execOption fuel s)
  | none, _ => by
    rw [Lox.execOption]
    exact L.holds_pure trivial
  | some s, h => by
    rw [Lox.execOption]
    exact exec fuel s h

theorem execAll {w : L.World} (fuel : Nat) : ∀ ss : List Stmt, L.Covers (nodesAll ss) →
    L.Holds w L.GoodFlow (execAll fuel ss)
  | [], _ => by
    rw [Lox.execAll]
    exact L.holds_pure trivial
  | s :: rest, h => by
    obtain ⟨hs, hrest⟩ := Covers.append h
    rw [Lox.execAll]
    refine L.holds_bind (exec fuel s hs) fun _ flow _ hflow => ?_
    cases flow with
    | next => exact execAll fuel rest hrest
    | leave => exact L.holds_pure trivial
    | result v => exact L.holds_pure hflow

end

end ActionLogic

end Lox
