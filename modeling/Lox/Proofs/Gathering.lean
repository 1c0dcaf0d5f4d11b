import Mathlib.Logic.Basic
import Lox.Proofs.Nodes
import Lox.Proofs.ParserSoundness

/-!
# Which texts join the name table

A reader that succeeds has put the texts of the names and strings that it consumed into the name
table, in the order in which they stand, and nothing else. So after a program has been read these
are the texts of its nodes.

* `Symbol.text?`, `textsOf`: the texts of names and strings among symbols;
* `Cursor.Gathers`: from one place to another, the texts of the tokens between them join the table;
* `Parser.Gathers`: a reader that goes from place to place in this way, with a rule for each way to
  build readers, and one lemma for each reader;
* `Expr.mem_textsOf_yield`, `Stmt.mem_textsOf_yield`: the texts of the symbols of a tree are those
  of its nodes;
* `parse_gathers`: what the table holds after a program has been read.
-/

namespace Lox

/-! ### Texts of symbols -/

/-- The text of a name or a string. -/
def Symbol.text? (s : Symbol) : Option String :=
  match s.kind, s.content with
  | .identifier, some (.str x) | .string, some (.str x) => some x
  | _, _ => none

/-- The texts of names and strings, in order. -/
def textsOf (ss : List Symbol) : List String := ss.filterMap Symbol.text?

theorem Symbol.text?_fixed (kind : Kind) : (fixed kind).text? = none := by
  cases kind <;> rfl

/-- Operators, punctuation and reserved words have no texts. -/
theorem Token.text?_of_isMark {t : Token} (h : t.kind.isMark) : t.symbol.text? = none := by
  rw [Token.symbol_of_isMark h, Symbol.text?_fixed]

/-- The end marker has no text. -/
theorem Token.text?_of_isEnd {t : Token} (h : t.isEnd) : t.symbol.text? = none := by
  have hkind : t.kind = .endOfInput := by simpa [Token.isEnd] using h
  rw [Token.symbol, hkind]
  exact Symbol.text?_fixed .endOfInput

@[simp] theorem textsOf_nil : textsOf [] = [] := rfl

@[simp] theorem textsOf_append (ss ts : List Symbol) :
    textsOf (ss ++ ts) = textsOf ss ++ textsOf ts := List.filterMap_append

@[simp] theorem textsOf_cons_fixed (kind : Kind) (ss : List Symbol) :
    textsOf (.fixed kind :: ss) = textsOf ss :=
  List.filterMap_cons_none (Symbol.text?_fixed kind)

@[simp] theorem textsOf_cons_name (x : String) (ss : List Symbol) :
    textsOf (.name x :: ss) = x :: textsOf ss := rfl

/-! ### Texts that join a table -/

/-- From `c` to `d` tokens are consumed, and their texts join the name table in order. -/
def Cursor.Gathers (c d : Cursor) : Prop :=
  ∃ used, c.rest = used ++ d.rest ∧ d.names = c.names.insertAll (textsOf (used.map Token.symbol))

namespace Cursor.Gathers

variable {c d e : Cursor}

theorem of_eq (hrest : d.rest = c.rest) (hnames : d.names = c.names) : c.Gathers d :=
  ⟨[], hrest.symm, hnames⟩

theorem trans (h : c.Gathers d) (h' : d.Gathers e) : c.Gathers e := by
  obtain ⟨used, hc, hd⟩ := h
  obtain ⟨used', hd', he⟩ := h'
  refine ⟨used ++ used', by rw [hc, hd', List.append_assoc], ?_⟩
  rw [he, hd, List.map_append, textsOf_append, NameTable.insertAll_append]

/-- One token is consumed. -/
theorem of_token {t : Token} (hrest : c.rest = t :: d.rest)
    (hnames : d.names = c.names.insertAll (textsOf [t.symbol])) : c.Gathers d :=
  ⟨[t], hrest, hnames⟩

end Cursor.Gathers

namespace Parser

variable {α β : Type} {c : Cursor}

/-- When the reader succeeds at `c`, it has put the texts of what it consumed into the name
table. -/
def GathersFrom (c : Cursor) (p : Parser α) : Prop := ∀ a d, p c = .ok a d → c.Gathers d

/-- When the reader succeeds, it has put the texts of what it consumed into the name table. -/
def Gathers (p : Parser α) : Prop := ∀ c, GathersFrom c p

/-! ### Rules -/

theorem gathers_pure (a : α) : Gathers (pure a) := by
  intro c b d h
  obtain ⟨-, rfl⟩ := pure_eq_ok.1 h
  exact .of_eq rfl rfl

theorem gathers_failAt (fault : ParseFault) (t : Token) : Gathers (failAt fault t : Parser α) :=
  fun _ _ _ h => absurd h failAt_ne_ok

theorem GathersFrom.bind {x : Parser α} {g : α → Parser β} (hx : GathersFrom c x)
    (hg : ∀ a, Gathers (g a)) : GathersFrom c (x >>= g) := by
  intro b e h
  obtain ⟨a, d, hxc, hga⟩ := bind_eq_ok.1 h
  exact (hx a d hxc).trans (hg a d b e hga)

theorem Gathers.bind {x : Parser α} {g : α → Parser β} (hx : Gathers x)
    (hg : ∀ a, Gathers (g a)) : Gathers (x >>= g) :=
  fun c => (hx c).bind hg

theorem Gathers.map {x : Parser α} {f : α → β} (hx : Gathers x) : Gathers (f <$> x) := by
  rw [← bind_pure_comp]
  exact hx.bind fun a => gathers_pure (f a)

theorem Gathers.ite {x y : Parser α} {b : Prop} [Decidable b] (hx : Gathers x) (hy : Gathers y) :
    Gathers (if b then x else y) := by
  split
  · exact hx
  · exact hy

theorem gathers_iterate {step : α → Parser (Option α)} (hstep : ∀ a, Gathers (step a)) (n : Nat)
    (a : α) : Gathers (iterate step n a) := by
  induction n generalizing a with
  | zero => exact gathers_pure a
  | succ n ih =>
    refine (hstep a).bind fun r => ?_
    cases r with
    | none => exact gathers_pure a
    | some b => exact ih b

/-- What comes after a look at the token ahead may depend on it. -/
theorem gathersFrom_peek {f : Token → Parser β} (h : GathersFrom c (f c.current)) :
    GathersFrom c (peek >>= f) := h

theorem gathersFrom_peekKind {f : Kind → Parser β} (h : GathersFrom c (f c.current.kind)) :
    GathersFrom c (peekKind >>= f) := h

theorem gathersFrom_peekNextKind {f : Kind → Parser β} (h : GathersFrom c (f c.nextKind)) :
    GathersFrom c (peekNextKind >>= f) := h

/-! ### Basic readers -/

/-- A reader that consumes nothing and leaves the name table alone. -/
theorem gathers_of_eq {p : Parser α}
    (h : ∀ c a d, p c = .ok a d → d.rest = c.rest ∧ d.names = c.names) : Gathers p :=
  fun c a d hp => .of_eq (h c a d hp).1 (h c a d hp).2

theorem gathers_peek : Gathers peek := gathers_of_eq fun _ _ _ h => by cases h; exact ⟨rfl, rfl⟩

theorem gathers_peekKind : Gathers peekKind :=
  gathers_of_eq fun _ _ _ h => by cases h; exact ⟨rfl, rfl⟩

theorem gathers_spanFrom (start : Span) : Gathers (spanFrom start) :=
  gathers_of_eq fun _ _ _ h => by cases h; exact ⟨rfl, rfl⟩

theorem gathers_newExpr (span : Span) : Gathers (newExpr span) :=
  gathers_of_eq fun _ _ _ h => by cases h; exact ⟨rfl, rfl⟩

theorem gathers_newStmt (start : Span) : Gathers (newStmt start) :=
  gathers_of_eq fun _ _ _ h => by cases h; exact ⟨rfl, rfl⟩

theorem gathers_keepTarget (target : Expr) : Gathers (keepTarget target) :=
  gathers_of_eq fun _ _ _ h => by cases h; exact ⟨rfl, rfl⟩

/-- A token without a text may be consumed as it is. -/
theorem gathersFrom_advance (h : c.current.kind.isMark) : GathersFrom c advance := by
  intro t d hadvance
  obtain ⟨rest, hrest, heq⟩ := advance_eq (Kind.ne_endOfInput_of_isMark h)
  rw [heq] at hadvance
  cases hadvance
  refine .of_token hrest ?_
  simp [textsOf, Token.text?_of_isMark h, NameTable.insertAll]

theorem gathers_accept {kind : Kind} (hk : kind.isMark) : Gathers (accept kind) := by
  refine fun c => gathersFrom_peekKind ?_
  split
  · next hkind =>
    have hmark : c.current.kind.isMark := by rwa [eq_of_beq hkind]
    exact (gathersFrom_advance hmark).bind fun _ => gathers_pure true
  · exact gathers_pure false c

theorem gathers_expect {kind : Kind} (hk : kind.isMark) (what : Expected) :
    Gathers (expect kind what) := by
  refine fun c => gathersFrom_peek ?_
  split
  · next hkind => exact gathersFrom_advance (by rwa [eq_of_beq hkind])
  · exact gathers_failAt _ _ c

/-- The text of a name joins the table when its token has been consumed. -/
theorem gathers_identifier (what : Expected) : Gathers (identifier what) := by
  intro c x d h
  obtain ⟨t, c₁, hexpect, h⟩ := bind_eq_ok.1 h
  obtain ⟨hkind, hadvance⟩ := expect_advance hexpect
  obtain ⟨rest, hrest, heq⟩ := advance_eq (c := c) (by simp [hkind])
  rw [heq] at hadvance
  cases hadvance
  cases h
  have hsymbol : c.current.symbol = .name c.current.lexeme := by rw [Token.symbol, hkind]
  refine .of_token hrest ?_
  rw [hsymbol]
  rfl

theorem internText_eq (value : Literal) (c : Cursor) :
    internText value c = .ok () { c with names := c.names.insertAll (textsOf [value.symbol]) } := by
  cases value with
  | bool b => cases b <;> rfl
  | _ => rfl

/-- The text of a string joins the table before its token is consumed. -/
theorem gathersFrom_literal {value : Literal} (hvalue : literal? c.current = some value) :
    GathersFrom c (literal c.current value) := by
  intro e d h
  obtain ⟨hsymbol, hend⟩ := literal?_eq_some hvalue
  obtain ⟨_, c₁, hintern, h⟩ := bind_eq_ok.1 h
  rw [internText_eq] at hintern
  cases hintern
  obtain ⟨t, c₂, hadvance, h⟩ := bind_eq_ok.1 h
  obtain ⟨rest, hrest, heq⟩ :=
    advance_eq (c := { c with names := c.names.insertAll (textsOf [value.symbol]) }) hend
  rw [heq] at hadvance
  cases hadvance
  cases h
  refine .of_token hrest ?_
  rw [← hsymbol]
  rfl

/-! ### Lists -/

/-- The readers that are entered again gather the texts of what they consume. -/
structure Entry.Gathers (g : Entry) : Prop where
  expression : Parser.Gathers g.expression
  unary : Parser.Gathers g.unary
  declaration : Parser.Gathers g.declaration

theorem gathers_commaList (g : Entry) {item : List α → Parser α}
    (hitem : ∀ found, Gathers (item found)) : Gathers (commaList g item) := by
  refine (hitem []).bind fun first => (gathers_iterate (fun found => ?_) _ _).bind fun _ =>
    gathers_pure _
  refine (gathers_accept rfl).bind fun _ => .ite ?_ (gathers_pure _)
  exact (hitem found).bind fun _ => gathers_pure _

theorem gathers_parameter (found : List String) : Gathers (parameter found) :=
  .ite (gathers_peek.bind fun _ => gathers_failAt _ _) (gathers_identifier _)

section Readers

variable {g : Entry} (hg : g.Gathers)
include hg

theorem gathers_blockBody : Gathers (blockBody g) := by
  refine (gathers_iterate (fun found => ?_) _ _).bind fun found =>
    (gathers_expect rfl _).bind fun _ => gathers_pure _
  refine gathers_peekKind.bind fun _ => .ite (gathers_pure _) ?_
  exact hg.declaration.bind fun _ => gathers_pure _

theorem gathers_functionRest : Gathers (functionRest g) := by
  refine (gathers_expect rfl _).bind fun _ => gathers_peekKind.bind fun _ => ?_
  rw [ite_bind]
  refine (Gathers.ite (gathers_pure []) (gathers_commaList g gathers_parameter)).bind fun _ => ?_
  refine (gathers_expect rfl _).bind fun _ => (gathers_expect rfl _).bind fun _ => ?_
  exact (gathers_blockBody hg).bind fun _ => gathers_pure _

/-! ### Expressions -/

theorem gathers_primary : Gathers (primary g) := by
  refine fun c => gathersFrom_peek ?_
  split
  · exact ((gathers_identifier _).bind fun _ => (gathers_newExpr _).bind fun _ => gathers_pure _) c
  · next hkind =>
    refine (gathersFrom_advance (by rw [hkind]; rfl)).bind fun _ => hg.expression.bind fun _ => ?_
    refine (gathers_expect rfl _).bind fun _ => (gathers_spanFrom _).bind fun _ => ?_
    exact (gathers_newExpr _).bind fun _ => gathers_pure _
  · next hkind =>
    refine (gathersFrom_advance (by rw [hkind]; rfl)).bind fun _ => ?_
    refine (gathers_functionRest hg).bind fun _ => (gathers_spanFrom _).bind fun _ => ?_
    exact (gathers_newExpr _).bind fun _ => gathers_pure _
  · cases hvalue : literal? c.current with
    | some value => exact gathersFrom_literal hvalue
    | none => exact gathers_failAt _ _ c

theorem gathers_arguments : Gathers (arguments g) := by
  refine gathers_peekKind.bind fun _ => ?_
  rw [ite_bind]
  refine (Gathers.ite (gathers_pure []) (gathers_commaList g fun _ => hg.expression)).bind
    fun _ => ?_
  exact (gathers_expect rfl _).bind fun _ => gathers_pure _

theorem gathers_suffix (e : Expr) : Gathers (suffix g e) := by
  have node (f : Mark → Expr) :
      Gathers (do return some (f (← newExpr (← spanFrom e.span)))) :=
    (gathers_spanFrom _).bind fun _ => (gathers_newExpr _).bind fun _ => gathers_pure _
  refine (gathers_accept rfl).bind fun _ => .ite ?_ ?_
  · exact (gathers_arguments hg).bind fun _ => node _
  · refine (gathers_accept rfl).bind fun _ => .ite ?_ (gathers_pure none)
    exact (gathers_identifier _).bind fun _ => node _

theorem gathers_call : Gathers (call g) :=
  (gathers_primary hg).bind fun e => gathers_iterate (gathers_suffix hg) _ e

theorem gathers_unary : Gathers (unary g) := by
  refine fun c => gathersFrom_peekKind ?_
  cases hop : UnaryOp.ofKind? c.current.kind with
  | some op =>
    have hmark : c.current.kind.isMark := by
      rw [← UnaryOp.ofKind?_eq_some hop]
      cases op <;> rfl
    exact (gathersFrom_advance hmark).bind fun _ => hg.unary.bind fun _ =>
      (gathers_newExpr _).bind fun _ => gathers_pure _
  | none => exact gathers_call hg c

omit hg in
theorem gathers_chainStep (level : Level) {operand : Parser Expr} (ho : Gathers operand)
    (left : Expr) : Gathers (chainStep level operand left) := by
  refine fun c => gathersFrom_peekKind ?_
  cases hop : level.operator? c.current.kind with
  | some op =>
    have hmark : c.current.kind.isMark := by
      rw [← (Level.operator?_eq_some hop).1]
      exact op.isMark_kind
    exact (gathersFrom_advance hmark).bind fun _ => ho.bind fun _ =>
      (gathers_newExpr _).bind fun _ => gathers_pure _
  | none => exact gathers_pure none c

theorem gathers_chain (levels : List Level) : Gathers (chain g levels) := by
  induction levels with
  | nil => exact gathers_unary hg
  | cons level levels ih => exact ih.bind fun e => gathers_iterate (gathers_chainStep level ih) _ e

omit hg in
/-- The target has been read already, so that its name is in the table. -/
theorem gathers_assign (equals : Token) (target value : Expr) :
    Gathers (assign equals target value) := by
  unfold assign
  split
  · exact (gathers_keepTarget _).bind fun _ => (gathers_newExpr _).bind fun _ => gathers_pure _
  · exact (gathers_keepTarget _).bind fun _ => (gathers_newExpr _).bind fun _ => gathers_pure _
  · exact gathers_failAt _ _

theorem gathers_assignment : Gathers (assignment g) := by
  refine (gathers_chain hg _).bind fun left c => gathersFrom_peekKind ?_
  split
  · next hkind =>
    refine (gathersFrom_advance (by rw [eq_of_beq hkind]; rfl)).bind fun equals => ?_
    exact hg.expression.bind fun value => gathers_assign equals left value
  · exact gathers_pure left c

/-! ### Statements -/

theorem gathers_operand? : Gathers (operand? g) :=
  gathers_peekKind.bind fun _ => .ite (gathers_pure none) hg.expression.map

omit hg in
/-- The end of a statement: a semicolon, and the mark of its node. -/
theorem gathers_endStmt (start : Span) (s : Mark → Stmt) (what : Expected) :
    Gathers (do
      let _ ← expect .semicolon what
      return s (← newStmt start)) :=
  (gathers_expect rfl _).bind fun _ => (gathers_newStmt _).bind fun _ => gathers_pure _

theorem gathers_varDecl (start : Span) : Gathers (varDecl g start) := by
  refine (gathers_identifier _).bind fun _ => (gathers_accept rfl).bind fun _ => ?_
  rw [ite_bind]
  exact (Gathers.ite hg.expression.map (gathers_pure none)).bind fun _ => gathers_endStmt _ _ _

theorem gathers_funDecl (start : Span) : Gathers (funDecl g start) :=
  (gathers_identifier _).bind fun _ => (gathers_functionRest hg).bind fun _ =>
    (gathers_newStmt _).bind fun _ => gathers_pure _

omit hg in
theorem gathers_classDecl (start : Span) : Gathers (classDecl start) :=
  (gathers_identifier _).bind fun _ => (gathers_expect rfl _).bind fun _ =>
    (gathers_expect rfl _).bind fun _ => (gathers_newStmt _).bind fun _ => gathers_pure _

theorem gathers_print (start : Span) : Gathers (print g start) :=
  hg.expression.bind fun _ => gathers_endStmt _ _ _

theorem gathers_block (start : Span) : Gathers (block g start) :=
  (gathers_blockBody hg).bind fun _ => (gathers_newStmt _).bind fun _ => gathers_pure _

theorem gathers_ifElse (start : Span) : Gathers (ifElse g start) := by
  refine (gathers_expect rfl _).bind fun _ => hg.expression.bind fun _ => ?_
  refine (gathers_expect rfl _).bind fun _ => hg.declaration.bind fun _ => ?_
  refine (gathers_accept rfl).bind fun _ => ?_
  rw [ite_bind]
  refine (Gathers.ite hg.declaration.map (gathers_pure none)).bind fun _ => ?_
  exact (gathers_newStmt _).bind fun _ => gathers_pure _

theorem gathers_whileDo (start : Span) : Gathers (whileDo g start) := by
  refine (gathers_expect rfl _).bind fun _ => hg.expression.bind fun _ => ?_
  refine (gathers_expect rfl _).bind fun _ => hg.declaration.bind fun _ => ?_
  exact (gathers_newStmt _).bind fun _ => gathers_pure _

theorem gathers_returns (start : Span) : Gathers (returns g start) :=
  (gathers_operand? hg).bind fun _ => gathers_endStmt _ _ _

theorem gathers_breaks (start : Span) : Gathers (breaks g start) :=
  (gathers_operand? hg).bind fun _ => gathers_endStmt _ _ _

theorem gathers_expression (start : Span) : Gathers (Parser.expression g start) :=
  (gathers_assignment hg).bind fun _ => gathers_endStmt _ _ _

/-- The words that select a reader have no texts. -/
theorem gathers_afterWord? {kind next : Kind} {p : Span → Parser Stmt}
    (h : afterWord? g kind next = some p) : kind.isMark ∧ ∀ start, Gathers (p start) := by
  unfold afterWord? at h
  split at h
  · cases h; exact ⟨rfl, gathers_varDecl hg⟩
  · cases h; exact ⟨rfl, gathers_classDecl⟩
  · split at h
    · cases h; exact ⟨rfl, gathers_funDecl hg⟩
    · cases h
  · cases h; exact ⟨rfl, gathers_print hg⟩
  · cases h; exact ⟨rfl, gathers_block hg⟩
  · cases h; exact ⟨rfl, gathers_ifElse hg⟩
  · cases h; exact ⟨rfl, gathers_whileDo hg⟩
  · cases h; exact ⟨rfl, gathers_returns hg⟩
  · cases h; exact ⟨rfl, gathers_breaks hg⟩
  · cases h

theorem gathers_declaration : Gathers (declaration g) := by
  refine fun c => gathersFrom_peek (gathersFrom_peekNextKind ?_)
  split
  · next rest hword =>
    obtain ⟨hmark, hrest⟩ := gathers_afterWord? hg hword
    exact (gathersFrom_advance hmark).bind fun _ => hrest _
  · exact gathers_expression hg _ c

end Readers

/-! ### Programs -/

theorem entry_gathers (n : Nat) : (entry n).Gathers := by
  induction n with
  | zero =>
    have stop {α : Type} : Gathers (do failAt (.expected .expression) (← peek) : Parser α) :=
      gathers_peek.bind fun _ => gathers_failAt _ _
    exact ⟨stop, stop, stop⟩
  | succ n ih => exact ⟨gathers_assignment ih, gathers_unary ih, gathers_declaration ih⟩

theorem program_gathers : Gathers program := by
  intro c
  refine ((gathers_iterate (fun found => ?_) _ _).bind fun _ => gathers_pure _) c
  refine gathers_peekKind.bind fun _ => .ite (gathers_pure none) ?_
  exact (gathers_declaration (entry_gathers _)).bind fun _ => gathers_pure _

/-- When a program has been read, the texts of its symbols have joined the table in order. -/
theorem names_program {c d : Cursor} {ss : List Stmt} (h : program c = .ok ss d) :
    d.names = c.names.insertAll (textsOf (yieldAll ss)) := by
  obtain ⟨⟨used, hused, hyield, -⟩, -⟩ := program_ok h
  obtain ⟨used', hused', hnames⟩ := program_gathers c ss d h
  obtain rfl : used' = used := List.append_cancel_right (hused'.symm.trans hused)
  rw [hnames, hyield]

end Parser

/-! ### Texts of trees -/

theorem mem_textsOf_separated {x : String} {xs : List (List Symbol)} :
    x ∈ textsOf (separated xs) ↔ ∃ ss ∈ xs, x ∈ textsOf ss := by
  have htail (ys : List (List Symbol)) :
      x ∈ textsOf (ys.flatMap (.fixed .comma :: ·)) ↔ ∃ ss ∈ ys, x ∈ textsOf ss := by
    induction ys with
    | nil => simp
    | cons y ys ih => simp [ih]
  cases xs with
  | nil => simp [separated]
  | cons y ys => simp [separated, htail]

theorem mem_textsOf_functionYield {x : String} {params : List String} {body : List Symbol} :
    x ∈ textsOf (functionYield params body) ↔ x ∈ params ∨ x ∈ textsOf body := by
  have hparams : x ∈ textsOf (separated (params.map fun y => [.name y])) ↔ x ∈ params := by
    simp [mem_textsOf_separated]
  simp [functionYield, hparams]

theorem mem_textsOf_literal {m : Mark} {value : Literal} {x : String} :
    x ∈ textsOf [value.symbol] ↔ x ∈ (Node.expr (.literal m value)).texts := by
  cases value with
  | bool b => cases b <;> simp [textsOf, Literal.symbol, Symbol.text?, Symbol.fixed, Node.texts]
  | _ => simp [textsOf, Literal.symbol, Symbol.text?, Symbol.fixed, Node.texts]

mutual

theorem Expr.mem_textsOf_yield (x : String) (e : Expr) :
    x ∈ textsOf e.yield ↔ ∃ n ∈ e.nodes, x ∈ n.texts := by
  cases e with
  | literal m value => simp [Expr.yield, Expr.nodes, mem_textsOf_literal (m := m)]
  | var => simp [Expr.yield, Expr.nodes, Node.texts]
  | group _ e | unary _ _ e | assign _ _ e =>
    simp [Expr.yield, Expr.nodes, Node.texts, e.mem_textsOf_yield x]
  | get _ e _ => simp [Expr.yield, Expr.nodes, Node.texts, e.mem_textsOf_yield x, or_comm]
  | binary _ l _ r | logical _ l _ r =>
    simp [Expr.yield, Expr.nodes, Node.texts, l.mem_textsOf_yield x, r.mem_textsOf_yield x,
      or_and_right, exists_or]
  | set _ e _ v =>
    simp [Expr.yield, Expr.nodes, Node.texts, e.mem_textsOf_yield x, v.mem_textsOf_yield x,
      or_and_right, exists_or, or_left_comm]
  | call _ f args =>
    simp [Expr.yield, Expr.nodes, Node.texts, f.mem_textsOf_yield x, mem_textsOf_yieldEach x args,
      or_and_right, exists_or, mem_textsOf_separated]
  | lambda _ _ body =>
    simp [Expr.yield, Expr.nodes, Node.texts, mem_textsOf_functionYield,
      mem_textsOf_yieldAll x body]

theorem mem_textsOf_yieldEach (x : String) (es : List Expr) :
    (∃ ss ∈ yieldEach es, x ∈ textsOf ss) ↔ ∃ n ∈ nodesEach es, x ∈ n.texts := by
  cases es with
  | nil => simp [yieldEach, nodesEach]
  | cons e es =>
    simp [yieldEach, nodesEach, e.mem_textsOf_yield x, mem_textsOf_yieldEach x es, or_and_right,
      exists_or]

theorem mem_textsOf_yieldOption (x : String) (e : Option Expr) :
    x ∈ textsOf (yieldOption e) ↔ ∃ n ∈ nodesOption e, x ∈ n.texts := by
  cases e with
  | none => simp [yieldOption, nodesOption]
  | some e => exact e.mem_textsOf_yield x

theorem Stmt.mem_textsOf_yield (x : String) (s : Stmt) :
    x ∈ textsOf s.yield ↔ ∃ n ∈ s.nodes, x ∈ n.texts := by
  cases s with
  | expression _ e | print _ e => simp [Stmt.yield, Stmt.nodes, Node.texts, e.mem_textsOf_yield x]
  | varDecl _ _ e =>
    have hinitial : textsOf (yieldInitial e) = textsOf (yieldOption e) := by
      cases e <;> simp [yieldInitial, yieldOption]
    simp [Stmt.yield, Stmt.nodes, Node.texts, hinitial, mem_textsOf_yieldOption x e]
  | returns _ e | breaks _ e =>
    simp [Stmt.yield, Stmt.nodes, Node.texts, mem_textsOf_yieldOption x e]
  | block _ body => simp [Stmt.yield, Stmt.nodes, Node.texts, mem_textsOf_yieldAll x body]
  | funDecl _ _ _ body =>
    simp [Stmt.yield, Stmt.nodes, Node.texts, mem_textsOf_functionYield,
      mem_textsOf_yieldAll x body, or_assoc]
  | ifElse _ c t e =>
    simp [Stmt.yield, Stmt.nodes, Node.texts, c.mem_textsOf_yield x, t.mem_textsOf_yield x,
      mem_textsOf_yieldElse x e, or_and_right, exists_or]
  | whileDo _ c b =>
    simp [Stmt.yield, Stmt.nodes, Node.texts, c.mem_textsOf_yield x, b.mem_textsOf_yield x,
      or_and_right, exists_or]
  | classDecl => simp [Stmt.yield, Stmt.nodes, Node.texts]

theorem mem_textsOf_yieldElse (x : String) (s : Option Stmt) :
    x ∈ textsOf (yieldElse s) ↔ ∃ n ∈ nodesElse s, x ∈ n.texts := by
  cases s with
  | none => simp [yieldElse, nodesElse]
  | some s => simp [yieldElse, nodesElse, s.mem_textsOf_yield x]

theorem mem_textsOf_yieldAll (x : String) (ss : List Stmt) :
    x ∈ textsOf (yieldAll ss) ↔ ∃ n ∈ nodesAll ss, x ∈ n.texts := by
  cases ss with
  | nil => simp [yieldAll, nodesAll]
  | cons s ss =>
    simp [yieldAll, nodesAll, s.mem_textsOf_yield x, mem_textsOf_yieldAll x ss, or_and_right,
      exists_or]

end

/-! ### Parsing -/

/-- When a program of tokens before an end marker has been read, the texts of the tokens have joined
the table in order, and these are the texts of the nodes of the program. -/
theorem parse_gathers {names : NameTable} {ts : List Token} {eof : Token} {program : Program}
    (hts : ∀ t ∈ ts, t.isEnd = false) (heof : eof.isEnd)
    (h : (parse names (ts ++ [eof])).1 = .ok program) :
    (parse names (ts ++ [eof])).2 = names.insertAll (textsOf (ts.map Token.symbol)) ∧
      ∀ x, x ∈ textsOf (ts.map Token.symbol) ↔ ∃ n ∈ program.nodes, x ∈ n.texts := by
  rw [parse] at h ⊢
  split at h
  · next ss d hread =>
    cases h
    obtain ⟨hyield, -⟩ := Parser.program_sound hts heof hread
    rw [hyield]
    exact ⟨Parser.names_program hread, fun x => mem_textsOf_yieldAll x ss⟩
  · cases h

end Lox
