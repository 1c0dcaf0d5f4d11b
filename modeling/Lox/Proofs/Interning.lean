import Lox.Proofs.Nodes
import Lox.Proofs.Reading

/-!
# What readers add to the name table

A reader only adds texts to the name table, also when it fails. When a program has been read, the
table holds the names and string texts of all its nodes, so that each of them has a number that
stands for it from then on.

* `Expr.Held`, `Stmt.Held`: trees whose texts are in a table;
* `Interns`: a reader that holds the texts of what it makes, with a rule for each way to build
  readers;
* one lemma for each reader;
* `grown_parse`, `extends_parse`, `mem_texts_of_parse`.
-/

namespace Lox

/-- A table holds the names and string texts of an expression. -/
def Expr.Held (names : NameTable) (e : Expr) : Prop :=
  ∀ n ∈ e.nodes, ∀ x ∈ n.texts, x ∈ names.texts

/-- A table holds the names and string texts of a statement. -/
def Stmt.Held (names : NameTable) (s : Stmt) : Prop :=
  ∀ n ∈ s.nodes, ∀ x ∈ n.texts, x ∈ names.texts

namespace Parser

variable {α β : Type}

/-- A reader adds texts to the name table, and whatever table extends the one after it holds what
was made, in the sense of `P`. -/
def Interns (P : NameTable → α → Prop) (p : Parser α) : Prop :=
  ∀ c, match p c with
    | .ok a d => d.names.GrownFrom c.names ∧ ∀ names : NameTable, names.Extends d.names → P names a
    | .error _ d => d.names.GrownFrom c.names

/-! ### Rules -/

theorem interns_pure {P : NameTable → α → Prop} {a : α} (h : ∀ names, P names a) :
    Interns P (pure a) :=
  fun c => ⟨.refl c.names, fun names _ => h names⟩

theorem interns_failAt {P : NameTable → α → Prop} (fault : ParseFault) (t : Token) :
    Interns P (failAt fault t) :=
  fun c => .refl c.names

/-- A reader that leaves the name table alone. -/
theorem interns_of_names {p : Parser α}
    (h : ∀ c, match p c with | .ok _ d => d.names = c.names | .error _ d => d.names = c.names) :
    Interns (fun _ _ => True) p := by
  intro c
  specialize h c
  split at h
  · rw [h]
    exact ⟨.refl _, fun _ _ => trivial⟩
  · rw [h]
    exact .refl _

namespace Interns

variable {P : NameTable → α → Prop} {Q : NameTable → β → Prop} {x : Parser α}

/-- What is held after the first reader is held after the second one, because that extends the
table. This is known only in the end, so that it is assumed where the second reader is judged. -/
theorem bind {g : α → Parser β} (hx : Interns P x)
    (hg : ∀ a, Interns (fun names b => P names a → Q names b) (g a)) : Interns Q (x >>= g) := by
  intro c
  have hxc := hx c
  cases h : x c with
  | error e d =>
    rw [h] at hxc
    rw [bind_of_error h]
    exact hxc
  | ok a d =>
    rw [h] at hxc
    rw [bind_of_ok h]
    have hga := hg a d
    split at hga
    · obtain ⟨hgrown, hheld⟩ := hga
      exact ⟨hgrown.trans hxc.1,
        fun names hn => hheld names hn (hxc.2 names (hn.trans hgrown.toExtends))⟩
    · exact hga.trans hxc.1

theorem mono {P' : NameTable → α → Prop} (hx : Interns P x)
    (h : ∀ names a, P names a → P' names a) : Interns P' x := by
  intro c
  have hxc := hx c
  split at hxc
  · exact ⟨hxc.1, fun names hn => h names _ (hxc.2 names hn)⟩
  · exact hxc

theorem map {f : α → β} (hx : Interns P x) (hf : ∀ names a, P names a → Q names (f a)) :
    Interns Q (f <$> x) := by
  rw [← bind_pure_comp]
  exact hx.bind fun a => interns_pure fun names => hf names a

/-- Both sides of a choice that depends on what was read. -/
theorem ite {y : Parser α} {b : Prop} [Decidable b] (hx : Interns P x) (hy : Interns P y) :
    Interns P (if b then x else y) := by
  split
  · exact hx
  · exact hy

end Interns

/-- An invariant of a loop. -/
theorem interns_iterate {P : NameTable → α → Prop} {step : α → Parser (Option α)}
    (hstep : ∀ a, Interns (fun names r => P names a → ∀ b ∈ r, P names b) (step a)) (n : Nat)
    (a : α) : Interns (fun names b => P names a → P names b) (iterate step n a) := by
  induction n generalizing a with
  | zero => exact interns_pure fun _ ha => ha
  | succ n ih =>
    rw [iterate]
    refine (hstep a).bind fun r => ?_
    cases r with
    | none => exact interns_pure fun _ _ ha => ha
    | some b => exact (ih b).mono fun _ _ hb hr ha => hb (hr ha b rfl)

/-! ### Basic readers -/

theorem interns_peek : Interns (fun _ _ => True) peek := interns_of_names fun _ => rfl

theorem interns_peekKind : Interns (fun _ _ => True) peekKind := interns_of_names fun _ => rfl

theorem interns_peekNextKind : Interns (fun _ _ => True) peekNextKind :=
  interns_of_names fun _ => rfl

theorem interns_advance : Interns (fun _ _ => True) advance := by
  refine interns_of_names fun c => ?_
  unfold advance
  cases c.rest with
  | nil => rfl
  | cons t rest => cases h : t.isEnd <;> simp [h]

theorem interns_spanFrom (start : Span) : Interns (fun _ _ => True) (spanFrom start) :=
  interns_of_names fun _ => rfl

theorem interns_newExpr (span : Span) : Interns (fun _ _ => True) (newExpr span) :=
  interns_of_names fun _ => rfl

theorem interns_newStmt (start : Span) : Interns (fun _ _ => True) (newStmt start) :=
  interns_of_names fun _ => rfl

theorem interns_keepTarget (target : Expr) : Interns (fun _ _ => True) (keepTarget target) :=
  interns_of_names fun _ => rfl

theorem interns_intern (text : String) :
    Interns (fun names _ => text ∈ names.texts) (intern text) :=
  fun c => ⟨.insert c.names text, fun _ hn => hn.mem (c.names.mem_insert text)⟩

theorem interns_accept (kind : Kind) : Interns (fun _ _ => True) (accept kind) := by
  refine interns_peekKind.bind fun k => .ite ?_ (interns_pure fun _ _ => trivial)
  exact interns_advance.bind fun _ => interns_pure fun _ _ _ => trivial

theorem interns_expect (kind : Kind) (what : Expected) :
    Interns (fun _ _ => True) (expect kind what) :=
  interns_peek.bind fun _ => .ite (interns_advance.mono fun _ _ h _ => h) (interns_failAt _ _)

theorem interns_identifier (what : Expected) :
    Interns (fun names x => x ∈ names.texts) (identifier what) :=
  (interns_expect _ _).bind fun _ => (interns_intern _).bind fun _ =>
    interns_pure fun _ hx _ => hx

/-! ### Lists -/

/-- The readers that are entered again hold the texts of what they make. -/
structure Entry.Interns (g : Entry) : Prop where
  expression : Parser.Interns Expr.Held g.expression
  unary : Parser.Interns Expr.Held g.unary
  declaration : Parser.Interns Stmt.Held g.declaration

theorem held_node {names : NameTable} (op : Operator) {m : Mark} {l r : Expr}
    (hl : l.Held names) (hr : r.Held names) : (op.node m l r).Held names := by
  cases op <;>
    simpa [Operator.node, Expr.Held, Expr.nodes, Node.texts, or_imp, forall_and] using ⟨hl, hr⟩

theorem interns_commaList (g : Entry) {P : NameTable → α → Prop} {item : List α → Parser α}
    (hitem : ∀ found, Interns P (item found)) :
    Interns (fun names xs => ∀ x ∈ xs, P names x) (commaList g item) := by
  refine (hitem []).bind fun x => ?_
  refine (interns_iterate (P := fun names xs => ∀ x ∈ xs, P names x) (fun found => ?_) _ _).bind
    fun found => interns_pure fun _ hfound hx => by simpa using hfound (by simpa using hx)
  refine (interns_accept .comma).bind fun _ => .ite ?_ (interns_pure (by simp))
  exact (hitem found).bind fun y => interns_pure fun _ hy _ hfound => by simpa using ⟨hy, hfound⟩

theorem interns_parameter (found : List String) :
    Interns (fun names x => x ∈ names.texts) (parameter found) :=
  .ite (interns_peek.bind fun _ => interns_failAt _ _) (interns_identifier _)

theorem interns_literal (t : Token) (value : Literal) :
    Interns Expr.Held (literal t value) := by
  have text : Interns (fun names _ => ∀ s, value = .str s → s ∈ names.texts)
      (internText value) := by
    -- a text joins the table before its token is consumed, the other literals add nothing
    unfold internText
    split
    · next s => exact (interns_intern s).mono fun _ _ hs => by simpa using hs
    · next h => exact interns_pure fun _ s hs => absurd hs (h s)
  refine text.bind fun _ => interns_advance.bind fun _ => (interns_newExpr _).bind fun m => ?_
  refine interns_pure fun names _ _ hvalue => ?_
  cases value with
  | str s => simpa [Expr.Held, Expr.nodes, Node.texts] using hvalue s rfl
  | _ => simp [Expr.Held, Expr.nodes, Node.texts]

section Readers

variable {g : Entry} (hg : g.Interns)
include hg

theorem interns_blockBody :
    Interns (fun names ss => ∀ s ∈ ss, Stmt.Held names s) (blockBody g) := by
  refine (interns_iterate (P := fun names ss => ∀ s ∈ ss, Stmt.Held names s) (fun found => ?_)
    _ _).bind fun found => ?_
  · refine interns_peekKind.bind fun _ => .ite (interns_pure (by simp)) ?_
    exact hg.declaration.bind fun s => interns_pure fun _ hs _ hfound => by
      simpa using ⟨hs, hfound⟩
  · exact (interns_expect _ _).bind fun _ => interns_pure fun _ _ hfound => by
      simpa using hfound (by simp)

theorem interns_functionRest :
    Interns (fun names r => (∀ x ∈ r.1, x ∈ names.texts) ∧ ∀ s ∈ r.2, Stmt.Held names s)
      (functionRest g) := by
  refine (interns_expect _ _).bind fun _ => interns_peekKind.bind fun _ => ?_
  rw [ite_bind]
  refine (Interns.ite (P := fun names params => ∀ x ∈ params, x ∈ names.texts)
    (interns_pure (by simp)) (interns_commaList g interns_parameter)).bind fun params => ?_
  refine (interns_expect _ _).bind fun _ => (interns_expect _ _).bind fun _ => ?_
  exact (interns_blockBody hg).bind fun body =>
    interns_pure fun _ hbody _ _ hparams _ _ => ⟨hparams, hbody⟩

/-! ### Expressions -/

theorem interns_primary : Interns Expr.Held (primary g) := by
  refine interns_peek.bind fun t => ?_
  split
  · refine (interns_identifier _).bind fun x => (interns_newExpr _).bind fun m => ?_
    exact interns_pure fun _ _ hx _ => by simpa [Expr.Held, Expr.nodes, Node.texts] using hx
  · refine interns_advance.bind fun _ => hg.expression.bind fun e => ?_
    refine (interns_expect _ _).bind fun _ => (interns_spanFrom _).bind fun _ => ?_
    refine (interns_newExpr _).bind fun m => interns_pure fun _ _ _ _ he _ _ => ?_
    simpa [Expr.Held, Expr.nodes, Node.texts] using he
  · refine interns_advance.bind fun _ => (interns_functionRest hg).bind fun r => ?_
    refine (interns_spanFrom _).bind fun _ => (interns_newExpr _).bind fun m => ?_
    refine interns_pure fun _ _ _ hr _ _ => ?_
    simpa [Expr.Held, Stmt.Held, Expr.nodes, Node.texts] using hr
  · split
    · exact (interns_literal _ _).mono fun _ _ he _ => he
    · exact interns_failAt _ _

theorem interns_arguments :
    Interns (fun names es => ∀ e ∈ es, Expr.Held names e) (arguments g) := by
  refine interns_peekKind.bind fun _ => ?_
  rw [ite_bind]
  refine (Interns.ite (P := fun names es => ∀ e ∈ es, Expr.Held names e) (interns_pure (by simp))
    (interns_commaList g fun _ => hg.expression)).bind fun es => ?_
  exact (interns_expect _ _).bind fun _ => interns_pure fun _ _ hes _ => hes

theorem interns_suffix (e : Expr) :
    Interns (fun names r => e.Held names → ∀ f ∈ r, Expr.Held names f) (suffix g e) := by
  have node (f : Mark → Expr) : Interns (fun names r => (∀ m, (f m).Held names) →
      ∀ e ∈ r, Expr.Held names e) (do return some (f (← newExpr (← spanFrom e.span)))) := by
    refine (interns_spanFrom _).bind fun _ => (interns_newExpr _).bind fun m => ?_
    exact interns_pure fun _ _ _ hf => by simpa using hf m
  refine (interns_accept _).bind fun _ => .ite ?_ ?_
  · refine (interns_arguments hg).bind fun args => (node _).mono fun names r h hargs _ he => ?_
    refine h fun m => ?_
    simpa [Expr.Held, Expr.nodes, Node.texts, or_imp, forall_and] using ⟨he, hargs⟩
  · refine (interns_accept _).bind fun _ => .ite ?_ (interns_pure (by simp))
    refine (interns_identifier _).bind fun x => (node _).mono fun names r h hx _ _ he => ?_
    refine h fun m => ?_
    simpa [Expr.Held, Expr.nodes, Node.texts] using ⟨hx, he⟩

theorem interns_call : Interns Expr.Held (call g) :=
  (interns_primary hg).bind fun e => interns_iterate (fun e => interns_suffix hg e) _ e

theorem interns_unary : Interns Expr.Held (unary g) := by
  refine interns_peekKind.bind fun kind => ?_
  split
  · refine interns_advance.bind fun t => hg.unary.bind fun e => (interns_newExpr _).bind fun m => ?_
    exact interns_pure fun _ _ he _ _ => by simpa [Expr.Held, Expr.nodes, Node.texts] using he
  · exact (interns_call hg).mono fun _ _ he _ => he

omit hg

theorem interns_chainStep (level : Level) {operand : Parser Expr}
    (ho : Interns Expr.Held operand) (left : Expr) :
    Interns (fun names r => left.Held names → ∀ e ∈ r, Expr.Held names e)
      (chainStep level operand left) := by
  refine interns_peekKind.bind fun kind => ?_
  split
  · next op _ =>
    refine interns_advance.bind fun t => ho.bind fun right => (interns_newExpr _).bind fun m => ?_
    exact interns_pure fun _ _ hr _ _ hl => by simpa using held_node op hl hr
  · exact interns_pure (by simp)

include hg

theorem interns_chain (levels : List Level) : Interns Expr.Held (chain g levels) := by
  induction levels with
  | nil => exact interns_unary hg
  | cons level levels ih =>
    exact ih.bind fun e => interns_iterate (fun e => interns_chainStep level ih e) _ e

omit hg

/-- The name of the target stays, and so does what is around it. -/
theorem interns_assign (equals : Token) (target value : Expr) :
    Interns (fun names e => value.Held names → target.Held names → e.Held names)
      (assign equals target value) := by
  unfold assign
  split
  · refine (interns_keepTarget _).bind fun _ => (interns_newExpr _).bind fun m =>
      interns_pure fun _ _ _ hv ht => ?_
    simp only [Expr.Held, Expr.nodes, List.forall_mem_cons] at ht
    simpa [Expr.Held, Expr.nodes, Node.texts] using ⟨by simpa [Node.texts] using ht.1, hv⟩
  · refine (interns_keepTarget _).bind fun _ => (interns_newExpr _).bind fun m =>
      interns_pure fun _ _ _ hv ht => ?_
    simp only [Expr.Held, Expr.nodes, List.forall_mem_cons] at ht
    simpa [Expr.Held, Expr.nodes, Node.texts, or_imp, forall_and] using
      ⟨by simpa [Node.texts] using ht.1, ht.2, hv⟩
  · exact interns_failAt _ _

include hg

theorem interns_assignment : Interns Expr.Held (assignment g) := by
  refine (interns_chain hg _).bind fun left => interns_peekKind.bind fun _ => .ite ?_ ?_
  · refine interns_advance.bind fun equals => hg.expression.bind fun value => ?_
    exact (interns_assign equals left value).mono fun _ _ h hv _ _ hl => h hv hl
  · exact interns_pure fun _ _ hl => hl

/-! ### Statements -/

theorem interns_operand? :
    Interns (fun names e => ∀ n ∈ nodesOption e, ∀ x ∈ n.texts, x ∈ names.texts)
      (operand? g) := by
  refine interns_peekKind.bind fun _ => .ite (interns_pure (by simp [nodesOption])) ?_
  exact hg.expression.map fun _ e he _ => by simpa [nodesOption]

omit hg

/-- The end of a statement: a semicolon, and the mark of its node. -/
theorem interns_endStmt (start : Span) (s : Mark → Stmt) (what : Expected) :
    Interns (fun names s' => (∀ m, (s m).Held names) → s'.Held names) (do
      let _ ← expect .semicolon what
      return s (← newStmt start)) :=
  (interns_expect _ _).bind fun _ => (interns_newStmt _).bind fun m =>
    interns_pure fun _ _ _ hs => hs m

include hg

theorem interns_varDecl (start : Span) : Interns Stmt.Held (varDecl g start) := by
  refine (interns_identifier _).bind fun x => (interns_accept _).bind fun _ => ?_
  rw [ite_bind]
  refine (Interns.ite (P := fun names e => ∀ n ∈ nodesOption e, ∀ x ∈ n.texts, x ∈ names.texts)
    ?_ ?_).bind fun e => ?_
  · exact hg.expression.map fun _ e he => by simpa [nodesOption]
  · exact interns_pure (by simp [nodesOption])
  · refine (interns_endStmt start _ _).mono fun _ _ h he _ hx => h fun m => ?_
    simpa [Stmt.Held, Stmt.nodes, Node.texts] using ⟨hx, he⟩

theorem interns_funDecl (start : Span) : Interns Stmt.Held (funDecl g start) := by
  refine (interns_identifier _).bind fun x => (interns_functionRest hg).bind fun r => ?_
  refine (interns_newStmt _).bind fun m => interns_pure fun _ _ hr hx => ?_
  simpa [Stmt.Held, Stmt.nodes, Node.texts, or_imp, forall_and] using ⟨⟨hx, hr.1⟩, hr.2⟩

omit hg in
theorem interns_classDecl (start : Span) : Interns Stmt.Held (classDecl start) := by
  refine (interns_identifier _).bind fun x => (interns_expect _ _).bind fun _ => ?_
  refine (interns_expect _ _).bind fun _ => (interns_newStmt _).bind fun m => ?_
  exact interns_pure fun _ _ _ _ hx => by simpa [Stmt.Held, Stmt.nodes, Node.texts] using hx

theorem interns_print (start : Span) : Interns Stmt.Held (print g start) :=
  hg.expression.bind fun e => (interns_endStmt start _ _).mono fun _ _ h he => h fun m => by
    simpa [Expr.Held, Stmt.Held, Stmt.nodes, Node.texts] using he

theorem interns_block (start : Span) : Interns Stmt.Held (block g start) := by
  refine (interns_blockBody hg).bind fun body => (interns_newStmt _).bind fun m => ?_
  exact interns_pure fun _ _ hbody => by
    simpa [Stmt.Held, Stmt.nodes, Node.texts] using hbody

theorem interns_ifElse (start : Span) : Interns Stmt.Held (ifElse g start) := by
  refine (interns_expect _ _).bind fun _ => hg.expression.bind fun c => ?_
  refine (interns_expect _ _).bind fun _ => hg.declaration.bind fun t => ?_
  refine (interns_accept _).bind fun _ => ?_
  rw [ite_bind]
  refine (Interns.ite (P := fun names e => ∀ n ∈ nodesElse e, ∀ x ∈ n.texts, x ∈ names.texts)
    ?_ ?_).bind fun e => ?_
  · exact hg.declaration.map fun _ s hs => by simpa [nodesElse]
  · exact interns_pure (by simp [nodesElse])
  · refine (interns_newStmt _).bind fun m => interns_pure fun _ _ he _ ht _ hc _ => ?_
    simpa [Stmt.Held, Stmt.nodes, Node.texts, or_imp, forall_and] using ⟨hc, ht, he⟩

theorem interns_whileDo (start : Span) : Interns Stmt.Held (whileDo g start) := by
  refine (interns_expect _ _).bind fun _ => hg.expression.bind fun c => ?_
  refine (interns_expect _ _).bind fun _ => hg.declaration.bind fun b => ?_
  refine (interns_newStmt _).bind fun m => interns_pure fun _ _ hb _ hc _ => ?_
  simpa [Stmt.Held, Stmt.nodes, Node.texts, or_imp, forall_and] using ⟨hc, hb⟩

theorem interns_returns (start : Span) : Interns Stmt.Held (returns g start) :=
  (interns_operand? hg).bind fun e => (interns_endStmt start _ _).mono fun _ _ h he =>
    h fun m => by simpa [Stmt.Held, Stmt.nodes, Node.texts] using he

theorem interns_breaks (start : Span) : Interns Stmt.Held (breaks g start) :=
  (interns_operand? hg).bind fun e => (interns_endStmt start _ _).mono fun _ _ h he =>
    h fun m => by simpa [Stmt.Held, Stmt.nodes, Node.texts] using he

theorem interns_expression (start : Span) : Interns Stmt.Held (Parser.expression g start) :=
  (interns_assignment hg).bind fun e => (interns_endStmt start _ _).mono fun _ _ h he =>
    h fun m => by simpa [Expr.Held, Stmt.Held, Stmt.nodes, Node.texts] using he

theorem interns_afterWord? {kind next : Kind} {p : Span → Parser Stmt}
    (h : afterWord? g kind next = some p) (start : Span) : Interns Stmt.Held (p start) := by
  unfold afterWord? at h
  split at h
  · cases h; exact interns_varDecl hg start
  · cases h; exact interns_classDecl start
  · split at h
    · cases h; exact interns_funDecl hg start
    · cases h
  · cases h; exact interns_print hg start
  · cases h; exact interns_block hg start
  · cases h; exact interns_ifElse hg start
  · cases h; exact interns_whileDo hg start
  · cases h; exact interns_returns hg start
  · cases h; exact interns_breaks hg start
  · cases h

theorem interns_declaration : Interns Stmt.Held (declaration g) := by
  refine interns_peek.bind fun t => interns_peekNextKind.bind fun next => ?_
  split
  · next p hp =>
    exact interns_advance.bind fun _ => (interns_afterWord? hg hp _).mono fun _ _ hs _ _ _ => hs
  · exact (interns_expression hg _).mono fun _ _ hs _ _ => hs

end Readers

/-! ### Programs -/

theorem entry_interns (n : Nat) : (entry n).Interns := by
  induction n with
  | zero =>
    have stop {α : Type} {P : NameTable → α → Prop} :
        Interns P (do failAt (.expected .expression) (← peek)) :=
      interns_peek.bind fun _ => interns_failAt _ _
    exact ⟨stop, stop, stop⟩
  | succ n ih => exact ⟨interns_assignment ih, interns_unary ih, interns_declaration ih⟩

theorem program_interns : Interns (fun names ss => ∀ s ∈ ss, Stmt.Held names s) program := by
  intro c
  refine Interns.bind
    (interns_iterate (P := fun names ss => ∀ s ∈ ss, Stmt.Held names s) (fun found => ?_) _ _)
    (fun found => interns_pure fun _ hfound => by simpa using hfound (by simp)) c
  refine interns_peekKind.bind fun _ => .ite (interns_pure (by simp)) ?_
  exact (interns_declaration (entry_interns _)).bind fun s => interns_pure fun _ hs _ hfound => by
    simpa using ⟨hs, hfound⟩

end Parser

/-! ### Parsing -/

/-- Reading a program, or failing to, adds texts to the name table. -/
theorem grown_parse (names : NameTable) (tokens : List Token) :
    (parse names tokens).2.GrownFrom names := by
  have hprogram := Parser.program_interns (.ofTokens names tokens)
  rw [parse]
  split at hprogram
  · next hp =>
    rw [hp]
    exact hprogram.1
  · next hp =>
    rw [hp]
    exact hprogram

theorem extends_parse (names : NameTable) (tokens : List Token) :
    (parse names tokens).2.Extends names :=
  (grown_parse names tokens).toExtends

/-- When a program has been read, the table holds the names and string texts of its nodes. -/
theorem mem_texts_of_parse {names : NameTable} {tokens : List Token} {program : Program}
    (h : (parse names tokens).1 = .ok program) :
    ∀ n ∈ program.nodes, ∀ x ∈ n.texts, x ∈ (parse names tokens).2.texts := by
  have hprogram := Parser.program_interns (.ofTokens names tokens)
  rw [parse] at h ⊢
  split at hprogram
  · next ss d hp =>
    rw [hp] at h ⊢
    cases h
    simpa [Program.nodes, Stmt.Held] using hprogram.2 d.names (.refl _)
  · next hp =>
    rw [hp] at h
    cases h

end Lox
