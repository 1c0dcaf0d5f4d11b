import Lox.Interned.Session
import Lox.Proofs.Functions
import Lox.Proofs.Interner
import Lox.Proofs.Interning
import Lox.Proofs.Operators

/-!
# What is interned

The numbers of texts stay when a table grows, and so do the trees, functions and values that are
interned with it. A table has to hold all their names and texts for that.

* `NameTable.AgreeOn`, `NameTable.Extends.agreeOn`: tables that give a text the same number;
* `TextsEach`, `NameTable.HoldsAll`: all names and texts of nodes have a property, or are in a
  table;
* `Expr.interned_congr`, `Stmt.interned_congr`: trees depend on the numbers of these only;
* `Function.interned`, `Value.interned`, and that they stay when the table grows;
* what `Interned.Value.face` shows of an interned value.
-/

namespace Lox

/-! ### Names and texts of trees -/

/-- All names and texts of nodes have a property. -/
def TextsEach (P : String → Prop) (ns : List Node) : Prop := ∀ n ∈ ns, ∀ x ∈ n.texts, P x

section TextsEach

variable {P Q : String → Prop} {n : Node} {ms ns : List Node}

@[simp] theorem textsEach_nil : TextsEach P [] := by simp [TextsEach]

@[simp] theorem textsEach_cons :
    TextsEach P (n :: ns) ↔ (∀ x ∈ n.texts, P x) ∧ TextsEach P ns := by
  simp [TextsEach]

@[simp] theorem textsEach_append :
    TextsEach P (ms ++ ns) ↔ TextsEach P ms ∧ TextsEach P ns := by
  simp [TextsEach, or_imp, forall_and]

theorem TextsEach.mono (h : TextsEach P ns) (hPQ : ∀ x, P x → Q x) : TextsEach Q ns :=
  fun n hn x hx => hPQ x (h n hn x hx)

end TextsEach

/-- A table holds the names and texts of nodes. -/
abbrev NameTable.HoldsAll (t : NameTable) (ns : List Node) : Prop := TextsEach (· ∈ t.texts) ns

/-- Two tables give a text the same number. -/
def NameTable.AgreeOn (t t' : NameTable) (x : String) : Prop := t.number x = t'.number x

variable {t t' : NameTable}

/-- The number of a text stays when the table grows. -/
theorem NameTable.Extends.agreeOn (h : t'.Extends t) (hdistinct : t'.Distinct) {x : String}
    (hx : x ∈ t.texts) : t'.AgreeOn t x :=
  hdistinct.number_eq (h.getElem?_texts (getElem?_number hx))

theorem map_number_congr {xs : List String} (h : ∀ x ∈ xs, t.AgreeOn t' x) :
    xs.map t.number = xs.map t'.number :=
  List.map_congr_left h

mutual

/-- The trees that are interned depend on the numbers of their names and texts only. -/
theorem Expr.interned_congr : ∀ e : Expr, TextsEach (t.AgreeOn t') e.nodes →
    e.interned t = e.interned t'
  | .literal m v, h => by
    simp only [Expr.nodes, textsEach_cons] at h
    rw [Expr.interned, Expr.interned]
    cases v with
    | str s => rw [Literal.interned, Literal.interned, h.1 s (by simp [Node.texts])]
    | _ => rfl
  | .group _ e, h | .unary _ _ e, h => by
    simp only [Expr.nodes, textsEach_cons] at h
    rw [Expr.interned, Expr.interned, e.interned_congr h.2]
  | .binary _ l _ r, h | .logical _ l _ r, h => by
    simp only [Expr.nodes, textsEach_cons, textsEach_append] at h
    rw [Expr.interned, Expr.interned, l.interned_congr h.2.1, r.interned_congr h.2.2]
  | .var _ x, h => by
    simp only [Expr.nodes, textsEach_cons] at h
    rw [Expr.interned, Expr.interned, h.1 x (by simp [Node.texts])]
  | .assign _ x e, h | .get _ e x, h => by
    simp only [Expr.nodes, textsEach_cons] at h
    rw [Expr.interned, Expr.interned, h.1 x (by simp [Node.texts]), e.interned_congr h.2]
  | .call _ f args, h => by
    simp only [Expr.nodes, textsEach_cons, textsEach_append] at h
    rw [Expr.interned, Expr.interned, f.interned_congr h.2.1, internedEach_congr args h.2.2]
  | .lambda _ params body, h => by
    simp only [Expr.nodes, textsEach_cons, Node.texts] at h
    rw [Expr.interned, Expr.interned, map_number_congr h.1, internedAll_congr body h.2]
  | .set _ e x v, h => by
    simp only [Expr.nodes, textsEach_cons, textsEach_append] at h
    rw [Expr.interned, Expr.interned, e.interned_congr h.2.1, h.1 x (by simp [Node.texts]),
      v.interned_congr h.2.2]

theorem internedEach_congr : ∀ es : List Expr, TextsEach (t.AgreeOn t') (nodesEach es) →
    internedEach t es = internedEach t' es
  | [], _ => rfl
  | e :: es, h => by
    simp only [nodesEach, textsEach_append] at h
    rw [internedEach, internedEach, e.interned_congr h.1, internedEach_congr es h.2]

theorem internedOption_congr : ∀ e : Option Expr, TextsEach (t.AgreeOn t') (nodesOption e) →
    internedOption t e = internedOption t' e
  | none, _ => rfl
  | some e, h => by rw [internedOption, internedOption, e.interned_congr h]

theorem Stmt.interned_congr : ∀ s : Stmt, TextsEach (t.AgreeOn t') s.nodes →
    s.interned t = s.interned t'
  | .expression _ e, h | .print _ e, h => by
    simp only [Stmt.nodes, textsEach_cons] at h
    rw [Stmt.interned, Stmt.interned, e.interned_congr h.2]
  | .varDecl _ x e, h => by
    simp only [Stmt.nodes, textsEach_cons] at h
    rw [Stmt.interned, Stmt.interned, h.1 x (by simp [Node.texts]), internedOption_congr e h.2]
  | .block _ body, h => by
    simp only [Stmt.nodes, textsEach_cons] at h
    rw [Stmt.interned, Stmt.interned, internedAll_congr body h.2]
  | .ifElse _ c s e, h => by
    simp only [Stmt.nodes, textsEach_cons, textsEach_append] at h
    rw [Stmt.interned, Stmt.interned, c.interned_congr h.2.1.1, s.interned_congr h.2.1.2,
      internedElse_congr e h.2.2]
  | .whileDo _ c b, h => by
    simp only [Stmt.nodes, textsEach_cons, textsEach_append] at h
    rw [Stmt.interned, Stmt.interned, c.interned_congr h.2.1, b.interned_congr h.2.2]
  | .funDecl _ x params body, h => by
    simp only [Stmt.nodes, textsEach_cons, Node.texts, List.forall_mem_cons] at h
    rw [Stmt.interned, Stmt.interned, h.1.1, map_number_congr h.1.2, internedAll_congr body h.2]
  | .returns _ e, h | .breaks _ e, h => by
    simp only [Stmt.nodes, textsEach_cons] at h
    rw [Stmt.interned, Stmt.interned, internedOption_congr e h.2]
  | .classDecl _ x, h => by
    simp only [Stmt.nodes, textsEach_cons] at h
    rw [Stmt.interned, Stmt.interned, h.1 x (by simp [Node.texts])]

theorem internedElse_congr : ∀ s : Option Stmt, TextsEach (t.AgreeOn t') (nodesElse s) →
    internedElse t s = internedElse t' s
  | none, _ => rfl
  | some s, h => by rw [internedElse, internedElse, s.interned_congr h]

theorem internedAll_congr : ∀ ss : List Stmt, TextsEach (t.AgreeOn t') (nodesAll ss) →
    internedAll t ss = internedAll t' ss
  | [], _ => rfl
  | s :: ss, h => by
    simp only [nodesAll, textsEach_append] at h
    rw [internedAll, internedAll, s.interned_congr h.1, internedAll_congr ss h.2]

end

theorem Stmt.span_interned (s : Stmt) : (s.interned t).span = s.span := by
  cases s <;> rw [interned] <;> rfl

/-! ### Functions and values -/

/-- A function with the numbers of a table. -/
def Function.interned (t : NameTable) (f : Function) : Interned.Function :=
  ⟨f.name, f.params.map t.number, internedAll t f.body, f.scope⟩

/-- A value with the numbers of a table. -/
def Value.interned (t : NameTable) : Value → Interned.Value
  | function id f => .function id (f.interned t)
  | v => .data v

/-- A table holds the names and texts of a function. -/
structure Function.Held (t : NameTable) (f : Function) : Prop where
  params : ∀ x ∈ f.params, x ∈ t.texts
  body : t.HoldsAll (nodesAll f.body)

theorem Function.Held.mono {f : Function} (h : f.Held t) (hle : t'.Extends t) : f.Held t' :=
  ⟨fun x hx => hle.mem (h.params x hx), h.body.mono fun _ hx => hle.mem hx⟩

/-- A function stays as it is interned when the table grows. -/
theorem Function.Held.interned_eq {f : Function} (h : f.Held t) (hle : t'.Extends t)
    (hdistinct : t'.Distinct) : f.interned t' = f.interned t := by
  have hparams : f.params.map t'.number = f.params.map t.number :=
    map_number_congr fun x hx => hle.agreeOn hdistinct (h.params x hx)
  have hbody : internedAll t' f.body = internedAll t f.body :=
    internedAll_congr f.body (h.body.mono fun _ hx => hle.agreeOn hdistinct hx)
  rw [interned, interned, hparams, hbody]

namespace Value

variable {v w : Value}

/-- A table holds the names and texts of a value. -/
abbrev Held (t : NameTable) (v : Value) : Prop := v.Each (Function.Held t)

theorem Held.mono (h : v.Held t) (hle : t'.Extends t) : v.Held t' :=
  Each.mono h fun _ hf => hf.mono hle

/-- A value stays as it is interned when the table grows. -/
theorem Held.interned_eq (h : v.Held t) (hle : t'.Extends t) (hdistinct : t'.Distinct) :
    v.interned t' = v.interned t := by
  cases v with
  | function id f => exact congrArg _ (Function.Held.interned_eq h hle hdistinct)
  | _ => rfl

theorem Plain.interned_eq (h : v.Plain) : v.interned t = .data v := by
  cases v with
  | function => cases h
  | _ => rfl

/-! Operators and messages see of an interned value what they see of the value. -/

@[simp] theorem type_face_interned (v : Value) : (v.interned t).face.type = v.type := by
  cases v <;> rfl

@[simp] theorem truthy_face_interned (v : Value) : (v.interned t).face.truthy = v.truthy := by
  cases v <;> rfl

@[simp] theorem number?_face_interned (v : Value) : (v.interned t).face.number? = v.number? := by
  cases v <;> rfl

@[simp] theorem arity?_face_interned (v : Value) : (v.interned t).face.arity? = v.arity? := by
  cases v with
  | function => simp [interned, Function.interned, Interned.Value.face, arity?]
  | _ => rfl

@[simp] theorem display_face_interned (v : Value) : (v.interned t).face.display = v.display := by
  cases v <;> rfl

end Value

@[simp] theorem UnaryOp.apply_face_interned (op : UnaryOp) (v : Value) :
    op.apply (v.interned t).face = op.apply v := by
  cases v with
  | function => cases op <;> rfl
  | _ => rfl

@[simp] theorem BinaryOp.apply_face_interned (op : BinaryOp) (v w : Value) :
    op.apply (v.interned t).face (w.interned t).face = op.apply v w := by
  cases v with
  | function => cases w <;> cases op <;> rfl
  | _ =>
    cases w with
    | function => cases op <;> rfl
    | _ => rfl

@[simp] theorem LogicalOp.decides_face_interned (op : LogicalOp) (v : Value) :
    op.decides (v.interned t).face = op.decides v := by
  cases op <;> simp [decides]

@[simp] theorem Builtin.apply_face_interned (builtin : Builtin) (now : Float) (vs : List Value) :
    builtin.apply now ((vs.map (Value.interned t)).map Interned.Value.face) =
      builtin.apply now vs := by
  cases builtin with
  | sqrt =>
    rcases vs with _ | ⟨v, _ | ⟨w, vs⟩⟩
    · rfl
    · simp only [List.map_cons, List.map_nil, apply, Value.number?_face_interned,
        Value.type_face_interned]
    · simp [apply]
  | _ => rfl

end Lox
